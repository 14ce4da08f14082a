import PgAdmin.ConfigReading

/-! Sessions of the configuration editor: settings are edited, undone and written, and the file that was written is read
as the window shows it. -/
namespace PgAdmin.frmMainConfig
open Cursor (cStr cStrNulFree)
open LineEnds (Translate translatedNoReturn)
open PgsObjects (Text)
open Tokenizer

section Store
variable {options : List pgSettingItem} {config : Config} {name : Text} {line : pgConfigLine}

/- A line made a comment is of a setting of the server, with no other active line and no later one. -/
def Keeps (options : List pgSettingItem) (config : Config) (name : Text) (line : pgConfigLine) : Prop :=
  line.isComment = true → knownIn options name = true ∧ ∀ i, config.orgLine name ≠ some i →
    (config.marks name)[i]? ≠ some (some false) ∧
      ∀ k ∈ config.orgLine name, k < i → (config.marks name)[i]? ≠ some (some true)

structure Good (options : List pgSettingItem) (config : Config) (name : Text) (line : pgConfigLine) : Prop where
  writable : Writable (typeOf (config.find name)) line
  keeps : Keeps options config name line

def Config.place (config : Config) (name : Text) : ℕ := (config.orgLine name).getD config.lines.length

def Config.shown (config : Config) (name : Text) : Option pgConfigLine :=
  (config.line name).map fun org => { value := org.value, comment := org.comment, isComment := org.isComment }

theorem lineIndents (consistent : Consistent options config) : ∀ org ∈ config.line name, ∀ c ∈ org.commentIndent,
    c = ' ' ∨ c = '\t' ∨ c = '#' := by
  intro org mem
  obtain ⟨k, -, at_⟩ := Option.bind_eq_some_iff.mp mem
  exact consistent.indents org (List.mem_of_getElem? at_)

theorem namedFound (consistent : Consistent options config) (named : ∀ item ∈ options, Named item.name)
    (found : (config.find name).isSome = true) : Named name := by
  rw [consistent.known, Bool.or_eq_true] at found
  rcases found with known | active
  · obtain ⟨item, here⟩ := Option.isSome_iff_exists.mp known
    have same : item.name = name := by simpa using List.find?_some here
    exact same ▸ named item (List.mem_of_find?_eq_some here)
  · obtain ⟨text, mem, marked⟩ := List.mem_map.mp (List.contains_iff_mem.mp active)
    unfold mark at marked
    split_ifs at marked with own
    obtain ⟨rfl, some_⟩ := own
    refine ⟨some_, fun c letter => ⟨List.mem_takeWhile_imp letter, ?_⟩⟩
    have inside : c ∈ cStr text := (List.dropWhile_suffix _).subset ((List.takeWhile_prefix _).subset letter)
    have whole : c ∈ text := (List.takeWhile_prefix _).subset inside
    have unbroken := consistent.unbroken text mem
    exact ⟨fun same => cStrNulFree text (same ▸ inside), fun same => unbroken.1 (same ▸ whole),
      fun same => unbroken.2 (same ▸ whole)⟩

section One
variable (consistent : Consistent options config) (named : Named name) (plain : Plain line)
include consistent named plain

theorem newTextOf : keywordOf (config.newText name line) = name ∧ commentOf (config.newText name line) =
    line.isComment := by
  obtain ⟨keyword, comment, -⟩ : keywordOf (config.newText name line) = name ∧
    commentOf (config.newText name line) = line.isComment ∧ _ := newTextScanned named plain (lineIndents consistent)
  exact ⟨keyword, comment⟩

theorem newTextMark : mark name (config.newText name line) = some line.isComment := by
  obtain ⟨keyword, comment⟩ := newTextOf consistent named plain
  rw [mark, keyword, comment, if_pos ⟨rfl, named.nonempty⟩]

theorem newTextForeign {other : Text} (differs : other ≠ name) : mark other (config.newText name line) = none :=
  markOther ((newTextOf consistent named plain).1.trans_ne (Ne.symm differs))

theorem newTextUnbroken : '\n' ∉ config.newText name line ∧ '\r' ∉ config.newText name line := by
  have letters : ∀ c ∈ config.newText name line, c ≠ '\x00' ∧ c ≠ '\n' ∧ c ≠ '\r' :=
    newTextPlain named plain (lineIndents consistent)
  exact ⟨fun mem => (letters _ mem).2.1 rfl, fun mem => (letters _ mem).2.2 rfl⟩

theorem newTextReads : Recovers (config.newText name line) line ↔ Writable (typeOf (config.find name)) line :=
  newTextRecovers named plain (lineIndents consistent)

end One

theorem storeFind (config : Config) (name other : Text) (line : pgConfigLine) (differs : other ≠ name) :
    (config.store name line).find other = config.find other := by
  unfold Config.store
  split
  · rw [findSet, if_neg differs]
  · rfl

theorem storeFindOwn (config : Config) (name : Text) (line : pgConfigLine) :
    typeOf ((config.store name line).find name) = typeOf (config.find name) ∧
      ((config.store name line).find name).isSome = (config.find name).isSome := by
  unfold Config.store
  split
  · rw [findSet, if_pos rfl]
    cases config.find name <;> exact ⟨rfl, rfl⟩
  · exact ⟨rfl, rfl⟩

theorem marksLength (config : Config) (name : Text) : (config.marks name).length = config.lines.length := by
  simp [Config.marks, Config.texts]

theorem lineless (consistent : Consistent options config) (found : (config.find name).isSome = true)
    (none_ : config.orgLine name = none) : knownIn options name = true ∧ some false ∉ config.marks name := by
  have inactive := chooseNone ((consistent.chosen name).symm.trans none_)
  rw [consistent.known, Bool.or_eq_true] at found
  exact ⟨found.resolve_right fun active => inactive (List.contains_iff_mem.mp active), inactive⟩

section Added
variable (consistent : Consistent options config) (named : Named name) (plain : Plain line)
  (found : (config.find name).isSome = true)
include consistent named plain found

theorem storeAdded (none_ : config.orgLine name = none) (writable : Writable (typeOf (config.find name)) line) :
    Added options config (config.store name line) (line.orgLine name (config.newText name line)) := by
  obtain ⟨known, inactive⟩ := lineless consistent found none_
  have whole : config.store name line = { lines := config.lines ++ [line.orgLine name (config.newText name line)]
                                          options := config.options.map fun other =>
      if other.name = name then { other with orgLine := some config.lines.length } else other } := by
    rw [Config.store, none_]
  have text : (line.orgLine name (config.newText name line)).text = config.newText name line := rfl
  have own := newTextMark consistent named plain
  have line_ : (config.store name line).orgLine name = some config.lines.length := by
    obtain ⟨item, here⟩ := Option.isSome_iff_exists.mp found
    rw [Config.orgLine, whole, findSet, if_pos rfl, here]
    rfl
  constructor
  · rw [whole]
    simp only [pgConfigLine.orgLine, Option.bind_some, none_, releasedNone]
  · intro other differs
    exact storeFind config name other line fun same => differs (congrArg some same.symm)
  · intro other owner
    obtain rfl := Option.some.inj owner
    obtain ⟨indent, fields⟩ := (newTextReads consistent named plain).mpr writable
    refine ⟨line_, (storeFindOwn config name line).1.trans (consistent.type name), ?_, indent, fields⟩
    exact (newTextOf consistent named plain).2.symm
  · intro other
    rw [text]
    by_cases same : other = name
    · subst same
      rw [(storeFindOwn config other line).2, found, known]
      rfl
    · rw [storeFind config name other line same, newTextForeign consistent named plain same,
        consistent.known]
      simp
  · intro other
    rw [text]
    by_cases same : other = name
    · subst same
      rw [line_, own, known]
      cases line.isComment with
      | false => rw [chooseActive, marksLength]
      | true => rw [chooseComment inactive, if_pos rfl, marksLength]
    · rw [newTextForeign consistent named plain same, chooseOther, ← consistent.chosen, Config.orgLine,
      storeFind config name other line same]
      rfl
  · intro c mem
    simp only [pgConfigLine.orgLine] at mem
    split_ifs at mem
    · simp only [DEFAULT_COMMENT_INDEX] at mem
      simp at mem
      tauto
    · simp at mem
  · exact newTextUnbroken consistent named plain

end Added

theorem lineFound (consistent : Consistent options config) {k : ℕ} (at_ : config.orgLine name = some k) :
    ∃ org, config.lines[k]? = some org ∧ org.item = some name ∧ mark name org.text = some org.isComment := by
  obtain ⟨org, here, item, comment, -⟩ := consistent.found name k at_
  obtain ⟨c, marked⟩ := chosenMark ((consistent.chosen name).symm.trans at_)
  rw [Config.marks, Config.texts, List.map_map, List.getElem?_map, here] at marked
  have own : mark name org.text = some c := Option.some.inj marked
  refine ⟨org, here, item, ?_⟩
  unfold mark at own ⊢
  split_ifs at own ⊢
  rw [comment]

section Set
variable {k : ℕ} (at_ : config.orgLine name = some k)
include at_

theorem storeWhole : config.store name line = { config with lines := config.lines.modify k fun org =>
    { org with text := config.newText name line, isComment := line.isComment, value := line.value,
               comment := line.comment } } := by
  rw [Config.store, at_]

theorem storeLines (i : ℕ) : (config.store name line).lines[i]? = config.lines[i]?.map fun org =>
    if k = i then { org with text := config.newText name line, isComment := line.isComment, value := line.value,
                             comment := line.comment } else org := by
  rw [storeWhole at_, List.getElem?_modify]
  rfl

theorem storeTexts (line : pgConfigLine) : (config.store name line).texts = config.texts.set k
    (config.newText name line) := by
  refine List.ext_getElem? fun i => ?_
  rw [Config.texts, List.getElem?_map, storeLines at_, List.getElem?_set, Config.texts, List.getElem?_map]
  cases here : config.lines[i]? with
  | none =>
    have outside := List.getElem?_eq_none_iff.mp here
    split_ifs with same inside
    · rw [List.length_map] at inside
      omega
    · rfl
    · rfl
  | some org =>
    have inside := (List.getElem?_eq_some_iff.mp here).1
    simp only [Option.map_some]
    split_ifs with same bound
    · rfl
    · rw [List.length_map] at bound
      omega
    · rfl

theorem storeMarks (consistent : Consistent options config) (named : Named name) (plain : Plain line) (other : Text) :
    (config.store name line).marks other =
      if other = name then (config.marks name).set k (some line.isComment) else config.marks other := by
  rw [Config.marks, storeTexts at_ line, List.map_set]
  split_ifs with same
  · rw [same, newTextMark consistent named plain]
    rfl
  · obtain ⟨org, here, -, own⟩ := lineFound consistent at_
    have before : (config.texts.map (mark other))[k]? = some none := by
      rw [Config.texts, List.map_map, List.getElem?_map, here, Option.map_some]
      unfold mark at own
      split_ifs at own with keyword
      exact congrArg some (markOther (keyword.1.trans_ne (Ne.symm same)))
    have foreign := newTextForeign consistent named plain same
    obtain ⟨bound, value⟩ := List.getElem?_eq_some_iff.mp before
    rw [foreign, ← value, List.set_getElem_self]
    rfl

theorem storeOrgLine (other : Text) : (config.store name line).orgLine other = config.orgLine other := by
  rw [storeWhole at_]
  rfl

theorem storeConsistent (consistent : Consistent options config) (named : Named name) (plain : Plain line)
    (good : Good options config name line) : Consistent options (config.store name line) := by
  have marks := storeMarks at_ consistent named plain
  obtain ⟨org, here, item, own⟩ := lineFound consistent at_
  have bound : k < (config.marks name).length := by
    rw [marksLength]
    exact (List.getElem?_eq_some_iff.mp here).1
  have finds (other : Text) : (config.store name line).find other = config.find other := by rw [storeWhole at_]; rfl
  constructor
  · rw [storeTexts at_ line]
    intro text mem
    rcases List.mem_or_eq_of_mem_set mem with mem | rfl
    · exact consistent.unbroken text mem
    · exact newTextUnbroken consistent named plain
  · intro other
    rw [finds, marks]
    split_ifs with same
    · subst same
      have found : (config.find other).isSome = true := by
        obtain ⟨item, here, -⟩ := Option.bind_eq_some_iff.mp at_
        rw [here]
        rfl
      rw [found, eq_comm, Bool.or_eq_true]
      cases comment : line.isComment with
      | true => exact .inl (good.keeps comment).1
      | false => exact .inr (List.contains_iff_mem.mpr (List.mem_of_getElem? (i := k) (by simp [setMark bound])))
    · exact consistent.known other
  · intro other
    rw [finds, consistent.type]
  · intro other
    rw [storeOrgLine at_, marks]
    split_ifs with same
    · subst same
      have chosen := (consistent.chosen other).symm.trans at_
      rw [at_]
      cases comment : line.isComment with
      | false => exact (chooseSetActive chosen).symm
      | true =>
        obtain ⟨known, others⟩ := good.keeps comment
        refine ((chooseSetComment bound).mpr ⟨known, fun i differs => ?_⟩).symm
        obtain ⟨active, later⟩ := others i fun same => differs (Option.some.inj (same.symm.trans at_))
        exact ⟨active, later k at_⟩
    · exact consistent.chosen other
  · intro other j line_
    rw [storeOrgLine at_] at line_
    obtain ⟨org', here', item', comment, fields⟩ := consistent.found other j line_
    rw [storeLines at_, here', Option.map_some]
    by_cases same : k = j
    · subst same
      obtain rfl := Option.some.inj (here.symm.trans here')
      obtain rfl := Option.some.inj (item.symm.trans item')
      simp only [if_true]
      refine ⟨_, rfl, item, ?_, ?_⟩
      · exact (newTextOf consistent named plain).2.symm
      · exact (newTextReads consistent named plain).mpr good.writable
    · simp only [same, if_false]
      exact ⟨org', rfl, item', comment, fields⟩
  · intro j org' other at' item'
    rw [storeOrgLine at_]
    rw [storeLines at_] at at'
    obtain ⟨before, was, same⟩ := Option.map_eq_some_iff.mp at'
    refine consistent.items j before other was ?_
    split_ifs at same <;> rw [← same] at item' <;> exact item'
  · intro org' mem
    obtain ⟨j, at'⟩ := List.getElem?_of_mem mem
    rw [storeLines at_] at at'
    obtain ⟨before, was, same⟩ := Option.map_eq_some_iff.mp at'
    have indent := consistent.indents before (List.mem_of_getElem? was)
    split_ifs at same <;> rw [← same] <;> exact indent

theorem storeScannable (consistent : Consistent options config) (scannable : Scannable options config.texts)
    (named : Named name) (plain : Plain line) (writable : Writable (typeOf (config.find name)) line) :
    Scannable options (config.store name line).texts := by
  intro i text here some_ known
  have before := storeTexts at_ line
  rw [before, List.getElem?_set] at here
  split_ifs at here with own bound
  · obtain rfl := Option.some.inj here
    obtain ⟨indent, fields⟩ := (newTextReads consistent named plain).mpr writable
    rw [fields]
    rfl
  · refine scannable i text here some_ fun comment => (known comment).elim .inl fun active => ?_
    obtain ⟨j, active⟩ := List.getElem?_of_mem active
    rw [List.map_take, List.getElem?_take] at active
    split_ifs at active with earlier
    have marked : ((config.store name line).marks (keywordOf text))[j]? = some (some false) := active
    have was (there : (config.marks (keywordOf text))[j]? = some (some false)) :
        some false ∈ (config.texts.take i).map (mark (keywordOf text)) := by
      refine List.mem_of_getElem? (i := j) ?_
      rw [List.map_take, List.getElem?_take, if_pos earlier]
      exact there
    rw [storeMarks at_ consistent named plain] at marked
    split_ifs at marked with same
    · obtain ⟨c, before⟩ := chosenMark ((consistent.chosen name).symm.trans at_)
      rw [← same] at before
      by_cases here' : j = k
      · subst here'
        cases c with
        | false => exact .inr (was before)
        | true => exact .inl (chooseKnown ((consistent.chosen _).symm.trans (same ▸ at_)) before)
      · rw [List.getElem?_set_ne (Ne.symm here'), ← same] at marked
        exact .inr (was marked)
    · exact .inr (was marked)

end Set

/- The other settings are what they were. -/
structure Apart (config : Config) (name : Text) (config' : Config) : Prop where
  sameFind : ∀ other, other ≠ name → config'.find other = config.find other
  sameLine : ∀ other, other ≠ name → config'.line other = config.line other

/- What it means for a setting to get its new line, and for the others. -/
structure Stored (options : List pgSettingItem) (config : Config) (name : Text) (line : pgConfigLine)
    (config' : Config) : Prop extends Apart config name config' where
  consistent : Consistent options config'
  scannable : Scannable options config'.texts
  place : config'.orgLine name = some (config.place name)
  shown : config'.shown name = some line
  marks : ∀ other, other ≠ name → ∀ i : ℕ, (config'.marks other)[i]?.getD none = (config.marks other)[i]?.getD none

theorem orgLineOther {config' : Config} {other : Text} (find : config'.find other = config.find other) :
    config'.orgLine other = config.orgLine other := by
  rw [Config.orgLine, find]
  rfl

theorem storeLast (none_ : config.orgLine name = none) :
    (config.store name line).lines = config.lines ++ [line.orgLine name (config.newText name line)] := by
  rw [Config.store, none_]

theorem storeApart (consistent : Consistent options config) (name : Text) (line : pgConfigLine) :
    Apart config name (config.store name line) := by
  have find (other : Text) (differs : other ≠ name) := storeFind config name other line differs
  refine ⟨find, fun other differs => ?_⟩
  rw [Config.line, orgLineOther (find other differs), Config.line]
  cases line_ : config.orgLine other with
  | none => rfl
  | some j =>
    cases at_ : config.orgLine name with
    | none =>
      obtain ⟨org, here, -⟩ := consistent.found other j line_
      rw [Option.bind_some, Option.bind_some, storeLast at_,
        List.getElem?_append_left (List.getElem?_eq_some_iff.mp here).1]
    | some k =>
      have apart : k ≠ j := by
        rintro rfl
        obtain ⟨org', here', item', -⟩ := lineFound consistent line_
        obtain ⟨org'', here'', item'', -⟩ := lineFound consistent at_
        obtain rfl := Option.some.inj (here'.symm.trans here'')
        exact differs (Option.some.inj (item'.symm.trans item''))
      simp only [Option.bind_some, storeLines at_, apart, if_false, Option.map_id']

theorem storeStored (consistent : Consistent options config) (scannable : Scannable options config.texts)
    (named : Named name) (plain : Plain line) (found : (config.find name).isSome = true)
    (good : Good options config name line) : Stored options config name line (config.store name line) := by
  have apart := storeApart consistent name line
  cases at_ : config.orgLine name with
  | none =>
    have added := storeAdded consistent named plain found at_ good.writable
    have own := added.owned name rfl
    have last : (config.store name line).lines[config.lines.length]? =
        some (line.orgLine name (config.newText name line)) := by
      rw [storeLast at_]
      simp
    refine ⟨apart, addedConsistent consistent added, ?_, ?_, ?_, fun other differs i => ?_⟩
    · rw [addedTexts added]
      refine scannableMore.mpr ⟨scannable, fun _ _ => ?_⟩
      obtain ⟨indent, fields⟩ := own.2.2.2
      rw [fields]
      rfl
    · rw [own.1, Config.place, at_]
      rfl
    · rw [Config.shown, Config.line, own.1, Option.bind_some, last]
      rfl
    · have foreign := newTextForeign consistent named plain differs
      have marks : (config.store name line).marks other = config.marks other ++ [none] := by
        rw [Config.marks, addedTexts added, List.map_append, ← foreign]
        rfl
      rw [marks]
      by_cases inside : i < (config.marks other).length
      · rw [List.getElem?_append_left inside]
      · rw [List.getElem?_append_right (Nat.le_of_not_lt inside), List.getElem?_eq_none (Nat.le_of_not_lt inside)]
        cases i - (config.marks other).length <;> rfl
  | some k =>
    have marks := storeMarks at_ consistent named plain
    obtain ⟨org, here, -, -⟩ := lineFound consistent at_
    refine ⟨apart, storeConsistent at_ consistent named plain good, storeScannable at_ consistent scannable named plain
      good.writable, ?_, ?_, fun other differs i => ?_⟩
    · rw [storeOrgLine at_, at_, Config.place, at_]
      rfl
    · rw [Config.shown, Config.line, storeOrgLine at_, at_, Option.bind_some, storeLines at_, here]
      simp
    · rw [marks, if_neg differs]

theorem goodOther {config' : Config} (stored : Stored options config name line config') {other : Text}
    (differs : other ≠ name) {line' : pgConfigLine} (good : Good options config other line') :
    Good options config' other line' := by
  have find := stored.sameFind other differs
  have marks (i : ℕ) (c : Bool) : (config'.marks other)[i]? = some (some c) ↔
      (config.marks other)[i]? = some (some c) := by
    have same := stored.marks other differs i
    generalize (config'.marks other)[i]? = after at same ⊢
    generalize (config.marks other)[i]? = before at same ⊢
    rcases after with _ | _ | _ <;> rcases before with _ | _ | _ <;> simp_all
  refine ⟨find ▸ good.writable, fun comment => ?_⟩
  obtain ⟨known, others⟩ := good.keeps comment
  refine ⟨known, fun i away => ?_⟩
  rw [orgLineOther find] at away ⊢
  obtain ⟨active, later⟩ := others i away
  exact ⟨fun at_ => active ((marks i false).mp at_), fun k mem after at_ => later k mem after ((marks i true).mp at_)⟩

end Store

def storeAll (newLine : Text → Option pgConfigLine) (names : List Text) (config : Config) : Config :=
  names.foldl (fun config name =>
    match newLine name with
    | none => config
    | some line => config.store name line) config

section All
variable {options : List pgSettingItem} {newLine : Text → Option pgConfigLine}

structure Ready (options : List pgSettingItem) (newLine : Text → Option pgConfigLine) (names : List Text)
    (config : Config) : Prop where
  consistent : Consistent options config
  scannable : Scannable options config.texts
  distinct : names.Nodup
  found : ∀ name ∈ names, (config.find name).isSome = true ∧ Named name
  good : ∀ name ∈ names, ∀ line, newLine name = some line → Plain line ∧ Good options config name line

theorem readyMore {name : Text} {names : List Text} {config : Config}
    (ready : Ready options newLine (name :: names) config) :
    (newLine name = none → Ready options newLine names config) ∧ ∀ line, newLine name = some line →
      Stored options config name line (config.store name line) ∧ Ready options newLine names
        (config.store name line) := by
  obtain ⟨consistent, scannable, distinct, found, good⟩ := ready
  obtain ⟨absent, distinct⟩ := List.nodup_cons.mp distinct
  obtain ⟨⟨found_, named⟩, found⟩ := List.forall_mem_cons.mp found
  obtain ⟨good_, good⟩ := List.forall_mem_cons.mp good
  refine ⟨fun _ => ⟨consistent, scannable, distinct, found, good⟩, fun line new => ?_⟩
  obtain ⟨plain, writable⟩ := good_ line new
  have stored := storeStored consistent scannable named plain found_ writable
  have apart {other : Text} (mem : other ∈ names) : other ≠ name := fun same => absent (same ▸ mem)
  refine ⟨stored, stored.consistent, stored.scannable, distinct, fun other mem => ?_, fun other mem line' new' => ?_⟩
  · rw [stored.sameFind other (apart mem)]
    exact found other mem
  · obtain ⟨plain', good'⟩ := good other mem line' new'
    exact ⟨plain', goodOther stored (apart mem) good'⟩

theorem storeAllKept {names : List Text} {config : Config} (ready : Ready options newLine names config) :
    Consistent options (storeAll newLine names config) ∧ Scannable options (storeAll newLine names config).texts ∧
      (∀ name, ((storeAll newLine names config).find name).isSome = (config.find name).isSome) ∧
      (∀ name ∈ names, newLine name ≠ none → (storeAll newLine names config).shown name = newLine name) ∧
        ∀ name, name ∉ names ∨ newLine name = none → (storeAll newLine names config).shown name = config.shown name :=
          by
  induction names generalizing config with
  | nil => exact ⟨ready.consistent, ready.scannable, fun _ => rfl, by simp, fun _ _ => rfl⟩
  | cons first names ih =>
    obtain ⟨absent, -⟩ := List.nodup_cons.mp ready.distinct
    obtain ⟨skip_, take_⟩ := readyMore ready
    cases new : newLine first with
    | none =>
      obtain ⟨consistent, scannable, found, shown, others⟩ := ih (skip_ new)
      have same : storeAll newLine (first :: names) config = storeAll newLine names config := by
        rw [storeAll, List.foldl_cons, new]
        rfl
      rw [same]
      refine ⟨consistent, scannable, found, fun name mem some_ => ?_, fun name apart => ?_⟩
      · exact shown name ((List.mem_cons.mp mem).resolve_left fun own => some_ (own ▸ new)) some_
      · exact others name (apart.imp_left fun absent mem => absent (List.mem_cons_of_mem first mem))
    | some line =>
      obtain ⟨stored, ready'⟩ := take_ line new
      obtain ⟨consistent, scannable, found, shown, others⟩ := ih ready'
      have same : storeAll newLine (first :: names) config = storeAll newLine names (config.store first line) := by
        rw [storeAll, List.foldl_cons, new]
        rfl
      rw [same]
      refine ⟨consistent, scannable, fun name => ?_, fun name mem some_ => ?_, fun name apart => ?_⟩
      · rw [found]
        by_cases own : name = first
        · rw [own, (storeFindOwn config first line).2]
        · rw [stored.sameFind name own]
      · rcases List.mem_cons.mp mem with rfl | mem
        · rw [others name (.inl absent), stored.shown, new]
        · exact shown name mem some_
      · have own : name ≠ first := by
          rintro rfl
          rcases apart with apart | none_
          · exact apart List.mem_cons_self
          · cases new.symm.trans none_
        rw [others name (apart.imp_left fun absent mem => absent (List.mem_cons_of_mem first mem)), Config.shown,
          stored.sameLine name own]
        rfl

def joined (texts : List Text) : Text := texts.flatMap (· ++ "\n".toList)

theorem storeAllCongr {newLine' : Text → Option pgConfigLine} {names : List Text}
    (same : ∀ name ∈ names, newLine name = newLine' name) (config : Config) :
    storeAll newLine names config = storeAll newLine' names config := by
  induction names generalizing config with
  | nil => rfl
  | cons first names ih =>
    obtain ⟨first_, rest⟩ := List.forall_mem_cons.mp same
    simp only [storeAll, List.foldl_cons] at ih ⊢
    rw [first_, ih rest]

theorem newTextOther {config config' : Config} {name other : Text} (stored : Apart config name config')
    (differs : other ≠ name) (line' : pgConfigLine) :
    config'.newText other line' = config.newText other line' := by
  rw [Config.newText, stored.sameFind other differs, stored.sameLine other differs]
  rfl

theorem orgTextOther (newLine : Text → Option pgConfigLine) (names names' : List Text) {config config' : Config}
    {name : Text} (stored : Apart config name config') {org : pgConfigOrgLine} (apart : org.item ≠ some name) :
    Session.GetNewText ⟨config', names', fun other => if other = name then none else newLine other⟩ org =
      Session.GetNewText ⟨config, names, newLine⟩ org := by
  unfold Session.GetNewText
  cases item : org.item with
  | none => rfl
  | some other =>
    have differs : other ≠ name := fun same => apart (by rw [item, same])
    have texts : config'.newText other = config.newText other := funext (newTextOther stored differs)
    simp only [Option.bind_some, differs, if_false, texts]

theorem addedOther {config config' : Config} {name other : Text} {names names' : List Text}
    (stored : Apart config name config') (differs : other ≠ name) :
    Session.added ⟨config', names', fun other => if other = name then none else newLine other⟩ other =
      Session.added ⟨config, names, newLine⟩ other := by
  unfold Session.added
  simp only [differs, if_false, orgLineOther (stored.sameFind other differs), newTextOther stored differs]

theorem storeWritten (names names' : List Text) {config : Config} {name : Text} {line : pgConfigLine}
    (consistent : Consistent options config) (new : newLine name = some line) :
    (config.store name line).lines.flatMap (fun org => Session.GetNewText ⟨config.store name line, names',
        fun other => if other = name then none else newLine other⟩ org ++ "\n".toList) =
      config.lines.flatMap (fun org => Session.GetNewText ⟨config, names, newLine⟩ org ++ "\n".toList) ++
        Session.added ⟨config, names, newLine⟩ name := by
  have kept {org : pgConfigOrgLine} (apart : org.item ≠ some name) :=
    orgTextOther newLine names names' (storeApart consistent name line) apart
  have own {org : pgConfigOrgLine} (item : org.item = some name) : Session.GetNewText ⟨config.store name line, names',
      fun other => if other = name then none else newLine other⟩ org = org.text := by
    simp [Session.GetNewText, item]
  have was {org : pgConfigOrgLine} (item : org.item = some name) :
      Session.GetNewText ⟨config, names, newLine⟩ org = config.newText name line := by
    simp [Session.GetNewText, item, new]
  have apart {i : ℕ} {org : pgConfigOrgLine} (here : config.lines[i]? = some org)
    (other : config.orgLine name ≠ some i) :
      org.item ≠ some name := fun item => other (consistent.items i org name here item)
  cases at_ : config.orgLine name with
  | none =>
    have added : Session.added ⟨config, names, newLine⟩ name = config.newText name line ++ "\n".toList := by
      simp only [Session.added, new, at_, Option.isNone_none, if_true]
    rw [storeLast at_, List.flatMap_append, added, List.flatMap_cons, List.flatMap_nil, List.append_nil, own rfl]
    congr 1
    refine List.flatMap_congr fun org mem => ?_
    obtain ⟨i, here⟩ := List.getElem?_of_mem mem
    rw [kept (apart here (by rw [at_]; exact fun same => nomatch same))]
  | some k =>
    have added : Session.added ⟨config, names, newLine⟩ name = [] := by simp [Session.added, new, at_]
    obtain ⟨org, here, item, -⟩ := lineFound consistent at_
    rw [added, List.append_nil, List.flatMap_def, List.flatMap_def]
    congr 1
    refine List.ext_getElem? fun i => ?_
    rw [List.getElem?_map, storeLines at_, List.getElem?_map, Option.map_map]
    cases at' : config.lines[i]? with
    | none => rfl
    | some org' =>
      simp only [Option.map_some, Function.comp_apply]
      by_cases same : k = i
      · subst same
        obtain rfl := Option.some.inj (here.symm.trans at')
        rw [if_pos rfl, was item]
        exact congrArg (fun text : Text => some (text ++ "\n".toList)) (own (by exact item))
      · rw [if_neg same, kept (apart at' (by rw [at_]; exact fun other => same (Option.some.inj other)))]

theorem strStored {names : List Text} {config : Config} (ready : Ready options newLine names config)
    (pending : ∀ name, newLine name ≠ none → name ∈ names) :
    Session.str ⟨config, names, newLine⟩ = joined (storeAll newLine names config).texts := by
  induction names generalizing config newLine with
  | nil =>
    have none_ (name : Text) : newLine name = none := by_contra fun some_ => by simpa using pending name some_
    have texts (org : pgConfigOrgLine) : Session.GetNewText ⟨config, [], newLine⟩ org = org.text := by
      unfold Session.GetNewText
      cases org.item <;> simp [none_]
    simp only [Session.str, texts, List.flatMap_nil, List.append_nil]
    rw [joined, Config.texts, List.flatMap_map]
    rfl
  | cons first names ih =>
    obtain ⟨absent, -⟩ := List.nodup_cons.mp ready.distinct
    obtain ⟨skip_, take_⟩ := readyMore ready
    cases new : newLine first with
    | none =>
      have inside (name : Text) (some_ : newLine name ≠ none) : name ∈ names :=
        (List.mem_cons.mp (pending name some_)).resolve_left fun own => some_ (own ▸ new)
      have same : storeAll newLine (first :: names) config = storeAll newLine names config := by
        rw [storeAll, List.foldl_cons, new]
        rfl
      have nothing : Session.added ⟨config, first :: names, newLine⟩ first = [] := by simp [Session.added, new]
      rw [same, ← ih (skip_ new) inside, Session.str, Session.str, List.flatMap_cons, nothing, List.nil_append]
      rfl
    | some line =>
      obtain ⟨stored, ready'⟩ := take_ line new
      have inside (name : Text) (some_ : (if name = first then none else newLine name) ≠ none) : name ∈ names := by
        split_ifs at some_ with own
        · exact absurd rfl some_
        · exact (List.mem_cons.mp (pending name some_)).resolve_left own
      have ready_ : Ready options (fun name => if name = first then none else newLine name) names
          (config.store first line) := by
        refine { ready' with good := fun name mem line' new' => ready'.good name mem line' ?_ }
        split_ifs at new'
        exact new'
      have same : storeAll newLine (first :: names) config =
          storeAll (fun name => if name = first then none else newLine name) names (config.store first line) := by
        rw [storeAll, List.foldl_cons, new]
        refine storeAllCongr (fun name mem => ?_) _
        rw [if_neg fun own : name = first => absent (own ▸ mem)]
      have rest : names.flatMap (Session.added ⟨config, first :: names, newLine⟩) = names.flatMap (Session.added
          ⟨config.store first line, names, fun name => if name = first then none else newLine name⟩) :=
        List.flatMap_congr fun name mem => (addedOther stored.toApart fun own : name = first => absent (own ▸ mem)).symm
      rw [same, ← ih ready_ inside, Session.str, Session.str, List.flatMap_cons, rest, ← List.append_assoc]
      congr 1
      exact (storeWritten _ _ ready.consistent new).symm

end All

section Reread
variable {options : List pgSettingItem} {config config' : Config}

theorem chooseBlank (known : Bool) (name : Text) (texts blanks : List Text)
    (empty : ∀ text ∈ blanks, text = []) :
    choose known ((texts ++ blanks).map (mark name)) = choose known (texts.map (mark name)) := by
  induction blanks using List.reverseRecOn with
  | nil => rw [List.append_nil]
  | append_singleton blanks text ih =>
    obtain rfl := empty text (by simp)
    have none_ : mark name [] = none := if_neg fun own => own.2 rfl
    rw [← List.append_assoc, List.map_append, List.map_singleton, none_, chooseOther]
    exact ih fun text mem => empty text (List.mem_append_left _ mem)

theorem shownSame (consistent : Consistent options config) (consistent' : Consistent options config')
    {blanks blanks' : List Text} (empty : ∀ text ∈ blanks, text = []) (empty' : ∀ text ∈ blanks', text = [])
    (same : config.texts ++ blanks = config'.texts ++ blanks') (name : Text) :
    config.orgLine name = config'.orgLine name ∧ config.shown name = config'.shown name := by
  have line : config.orgLine name = config'.orgLine name := by
    rw [consistent.chosen, consistent'.chosen, Config.marks, Config.marks,
      ← chooseBlank (knownIn options name) name config.texts blanks empty, same, chooseBlank _ _ _ _ empty']
  refine ⟨line, ?_⟩
  rw [Config.shown, Config.line, Config.shown, Config.line, ← line]
  cases at_ : config.orgLine name with
  | none => rfl
  | some k =>
    obtain ⟨org, here, -, comment, indent, fields⟩ := consistent.found name k at_
    obtain ⟨org', here', -, comment', indent', fields'⟩ := consistent'.found name k (line.symm.trans at_)
    have text : org.text = org'.text := by
      have first : (config.texts ++ blanks)[k]? = some org.text := by
        rw [List.getElem?_append_left (by simpa [Config.texts] using (List.getElem?_eq_some_iff.mp here).1),
          Config.texts, List.getElem?_map, here]
        rfl
      have second : (config'.texts ++ blanks')[k]? = some org'.text := by
        rw [List.getElem?_append_left (by simpa [Config.texts] using (List.getElem?_eq_some_iff.mp here').1),
          Config.texts, List.getElem?_map, here']
        rfl
      rw [same, second] at first
      exact (Option.some.inj first).symm
    rw [text, fields'] at fields
    obtain ⟨value, rest⟩ := Prod.mk.inj (Option.some.inj fields)
    obtain ⟨-, tail⟩ := Prod.mk.inj rest
    rw [Option.bind_some, Option.bind_some, here, here', Option.map_some, Option.map_some, value, tail, comment,
      comment',
      text]

theorem splitJoined {texts : List Text} (unbroken : ∀ text ∈ texts, '\n' ∉ text ∧ '\r' ∉ text) :
    (joined texts).splitOn '\n' = texts ++ [[]] := by
  induction texts with
  | nil => rfl
  | cons text texts ih =>
    obtain ⟨free, rest⟩ := List.forall_mem_cons.mp unbroken
    have whole : joined (text :: texts) = text ++ '\n' :: joined texts := by simp [joined]
    rw [whole, List.splitOn_append_cons_self, List.splitOn_eq_singleton free.1, ih rest]
    rfl

theorem joinedUnix {texts : List Text} (unbroken : ∀ text ∈ texts, '\n' ∉ text ∧ '\r' ∉ text) :
    '\r' ∉ joined texts := by
  intro mem
  obtain ⟨text, inside, letter⟩ := List.mem_flatMap.mp mem
  rcases List.mem_append.mp letter with letter | letter
  · exact (unbroken text inside).2 letter
  · simp at letter

theorem scannableFront {front back : List Text} (scannable : Scannable options (front ++ back)) :
    Scannable options front := by
  intro i text here
  have inside := (List.getElem?_eq_some_iff.mp here).1
  have more := scannable i text (by rw [List.getElem?_append_left inside, here])
  rwa [List.take_append_of_le_length (Nat.le_of_lt inside)] at more

theorem joinedLines (options : List pgSettingItem) {texts : List Text}
    (unbroken : ∀ text ∈ texts, '\n' ∉ text ∧ '\r' ∉ text) :
    ∃ front blanks, DisplayFile options (joined texts) = reads options front ∧ texts ++ [[]] = front ++ blanks ∧
      (∀ text ∈ blanks, text = []) ∧ ∀ text ∈ front, '\n' ∉ text ∧ '\r' ∉ text := by
  obtain ⟨blanks, empty, whole⟩ := retEmptyRest '\n' (joined texts)
  rw [splitJoined unbroken] at whole
  refine ⟨retEmpty '\n' (joined texts), blanks, ?_, whole, empty, fun text mem => ?_⟩
  · rw [DisplayFile, if_neg (joinedUnix unbroken)]
    rfl
  · have inside : text ∈ texts ++ [[]] := whole ▸ List.mem_append_left _ mem
    rcases List.mem_append.mp inside with mem | mem
    · exact unbroken text mem
    · simp [List.mem_singleton.mp mem]

variable (fresh : ∀ item ∈ options, item.orgLine = none)
include fresh

theorem rereadShown (consistent : Consistent options config) (scannable : Scannable options config.texts) :
    ∃ reread, DisplayFile options (joined config.texts) = some reread ∧ ∀ name,
      reread.orgLine name = config.orgLine name ∧ reread.shown name = config.shown name := by
  obtain ⟨front, blanks, display, whole, empty, unbroken⟩ := joinedLines options consistent.unbroken
  have more : Scannable options (config.texts ++ [[]]) := scannableMore.mpr ⟨scannable, fun some_ => absurd rfl some_⟩
  rw [whole] at more
  obtain ⟨reread, read⟩ := Option.isSome_iff_exists.mp ((readScannable fresh unbroken).mpr (scannableFront more))
  obtain ⟨consistent', texts⟩ := readConsistent fresh unbroken read
  refine ⟨reread, display.trans read, fun name => ?_⟩
  have same : reread.texts ++ blanks = config.texts ++ [[]] := by rw [texts, whole]
  exact shownSame consistent' consistent empty (by simp) same name

theorem rereadFound {texts : List Text} (unbroken : ∀ text ∈ texts, '\n' ∉ text ∧ '\r' ∉ text) {reread : Config}
    (read : DisplayFile options (joined texts) = some reread) {name : Text} {k : ℕ}
    (place : reread.orgLine name = some k) {line : pgConfigLine} (shown : reread.shown name = some line) :
    choose (knownIn options name) (texts.map (mark name)) = some k ∧ ∃ text, (texts ++ [[]])[k]? = some text ∧
      Recovers text line := by
  obtain ⟨front, blanks, display, whole, empty, unbroken'⟩ := joinedLines options unbroken
  obtain ⟨consistent, same⟩ := readConsistent fresh unbroken' (display.symm.trans read)
  refine ⟨?_, ?_⟩
  · rw [← chooseBlank _ name texts [[]] (by simp), whole, chooseBlank _ name front blanks empty, ← same, ← place,
      consistent.chosen]
    rfl
  · obtain ⟨org, here, -, -, indent, fields⟩ := consistent.found name k place
    rw [Config.shown, Config.line, place, Option.bind_some, here, Option.map_some] at shown
    obtain rfl := Option.some.inj shown
    refine ⟨org.text, ?_, indent, fields⟩
    have at_ : front[k]? = some org.text := by rw [← same, Config.texts, List.getElem?_map, here]; rfl
    rw [whole, List.getElem?_append_left (List.getElem?_eq_some_iff.mp at_).1, at_]

theorem displayed {str : Text} (read : DisplayFile options str = some config) :
    Consistent options config ∧ Scannable options config.texts := by
  rw [DisplayFile] at read
  have unix : '\r' ∉ (if '\r' ∈ str then Translate .unix str else str) := by
    split_ifs with inside
    · exact translatedNoReturn str
    · exact inside
  generalize (if '\r' ∈ str then Translate .unix str else str) = unixText at read unix
  obtain ⟨blanks, -, whole⟩ := retEmptyRest '\n' unixText
  have unbroken : ∀ text ∈ retEmpty '\n' unixText, '\n' ∉ text ∧ '\r' ∉ text := by
    intro text mem
    obtain ⟨free, letters⟩ := pieceLetters (whole ▸ List.mem_append_left blanks mem : text ∈ unixText.splitOn '\n')
    exact ⟨free, fun ret => unix (letters _ ret)⟩
  obtain ⟨consistent, texts⟩ := readConsistent fresh unbroken read
  exact ⟨consistent, texts ▸ (readScannable fresh unbroken).mp (Option.isSome_iff_exists.mpr ⟨config, read⟩)⟩

end Reread

structure Frame (touched : Text → Prop) (config config' : Config) : Prop where
  longer : config.lines.length ≤ config'.lines.length
  place : ∀ name i, i < config.lines.length → (config'.orgLine name = some i ↔ config.orgLine name = some i)
  text : ∀ i, i < config.lines.length → (∀ name, touched name → config.orgLine name ≠ some i) →
    config'.texts[i]? = config.texts[i]?

section Frames
variable {touched : Text → Prop} {options : List pgSettingItem} {config config' config'' : Config}

theorem frameSelf (touched : Text → Prop) (config : Config) : Frame touched config config :=
  ⟨Nat.le_refl _, fun _ _ _ => Iff.rfl, fun _ _ _ => rfl⟩

theorem frameTrans (first : Frame touched config config') (second : Frame touched config' config'') :
    Frame touched config config'' where
  longer := first.longer.trans second.longer
  place name i inside := (second.place name i (inside.trans_le first.longer)).trans (first.place name i inside)
  text i inside away := (second.text i (inside.trans_le first.longer) fun name touch at_ =>
    away name touch ((first.place name i inside).mp at_)).trans (first.text i inside away)

theorem storeFrame (config : Config) {name : Text} (line : pgConfigLine) (touch : touched name) :
    Frame touched config (config.store name line) := by
  cases at_ : config.orgLine name with
  | none =>
    have lines : (config.store name line).lines = _ := storeLast at_
    refine ⟨by rw [lines, List.length_append]; omega, fun other i inside => ?_, fun i inside _ => ?_⟩
    · by_cases own : other = name
      · subst own
        have own : (config.store other line).orgLine other =
            (config.find other).bind fun _ => some config.lines.length := by
          rw [Config.orgLine, Config.store, at_]
          simp only [findSet, if_true]
          cases config.find other <;> rfl
        rw [at_, own]
        refine iff_of_false (fun same => ?_) (by simp)
        obtain ⟨-, -, last⟩ := Option.bind_eq_some_iff.mp same
        exact Nat.ne_of_lt inside (Option.some.inj last).symm
      · rw [orgLineOther (storeFind config name other line own)]
    · rw [Config.texts, lines, List.map_append, List.getElem?_append_left (by simpa using inside)]
      rfl
  | some k =>
    refine ⟨by rw [storeWhole at_, List.length_modify], fun other i _ => by rw [storeOrgLine at_], fun i _ away => ?_⟩
    rw [storeTexts at_, List.getElem?_set_ne]
    rintro rfl
    exact away name touch at_

theorem storeAllFrame {newLine : Text → Option pgConfigLine} {names : List Text}
    (ready : Ready options newLine names config)
    (touch : ∀ name, newLine name ≠ none → touched name) : Frame touched config (storeAll newLine names config) := by
  induction names generalizing config with
  | nil => exact frameSelf touched config
  | cons first names ih =>
    obtain ⟨skip_, take_⟩ := readyMore ready
    rw [storeAll, List.foldl_cons]
    cases new : newLine first with
    | none => exact ih (skip_ new)
    | some line =>
      have touch_ : touched first := touch first (by simp [new])
      exact frameTrans (storeFrame config line touch_) (ih (take_ line new).2)

end Frames

def only (name : Text) (line : pgConfigLine) : Text → Option pgConfigLine :=
  fun other => if other = name then some line else none

section Only
variable {options : List pgSettingItem} {config : Config} {name : Text} {line : pgConfigLine} {names : List Text}

theorem strOnly (consistent : Consistent options config) (distinct : names.Nodup) (mem : name ∈ names) :
    Session.str ⟨config, names, only name line⟩ = joined (config.store name line).texts := by
  have new : only name line name = some line := if_pos rfl
  have none_ (other : Text) : (if other = name then none else only name line other) = none := by
    unfold only
    split_ifs <;> rfl
  have written := storeWritten names names consistent new
  have texts (org : pgConfigOrgLine) : Session.GetNewText ⟨config.store name line, names,
      fun other => if other = name then none else only name line other⟩ org = org.text := by
    unfold Session.GetNewText
    cases org.item <;> simp [none_]
  have lone : names.flatMap (Session.added ⟨config, names, only name line⟩) =
      Session.added ⟨config, names, only name line⟩ name := by
    have nothing {other : Text} (differs : other ≠ name) : Session.added ⟨config, names, only name line⟩ other = [] :=
      by
      simp [Session.added, only, differs]
    obtain ⟨before, after, split⟩ := List.append_of_mem mem
    obtain ⟨-, tail, apart⟩ := List.nodup_append.mp (split ▸ distinct)
    have absent := (List.nodup_cons.mp tail).1
    have front : before.flatMap (Session.added ⟨config, names, only name line⟩) = [] :=
      List.flatMap_eq_nil_iff.mpr fun other inside => nothing (apart other inside name List.mem_cons_self)
    have back : after.flatMap (Session.added ⟨config, names, only name line⟩) = [] :=
      List.flatMap_eq_nil_iff.mpr fun other inside => nothing fun same : other = name => absent (same ▸ inside)
    rw [split, List.flatMap_append, List.flatMap_cons, ← split, front, back, List.nil_append, List.append_nil]
  rw [Session.str, lone, ← written]
  simp only [texts]
  rw [joined, Config.texts, List.flatMap_map]

theorem onlyReread (fresh : ∀ item ∈ options, item.orgLine = none) (consistent : Consistent options config)
    (scannable : Scannable options config.texts) (named : Named name) (plain : Plain line)
    (found : (config.find name).isSome = true) :
    (∃ reread, DisplayFile options (joined (config.store name line).texts) = some reread ∧
      reread.orgLine name = some (config.place name) ∧ reread.shown name = some line) ↔
      Good options config name line := by
  constructor
  · rintro ⟨reread, read, place, shown⟩
    have new := newTextUnbroken consistent named plain
    have reads := newTextReads consistent named plain
    have mark_ := newTextMark consistent named plain
    cases at_ : config.orgLine name with
    | none =>
      have texts : (config.store name line).texts = config.texts ++ [config.newText name line] := by
        rw [Config.texts, storeLast at_, List.map_append]
        rfl
      obtain ⟨known, inactive⟩ := lineless consistent found at_
      have length : config.texts.length = config.lines.length := by simp [Config.texts]
      have own : config.place name = config.texts.length := by rw [Config.place, at_, length]; rfl
      rw [texts] at read
      obtain ⟨-, text, here, recovers⟩ := rereadFound fresh (fun text mem => (List.mem_append.mp mem).elim
        (consistent.unbroken text) fun mem => List.mem_singleton.mp mem ▸ new) read (own ▸ place) shown
      obtain rfl : config.newText name line = text := by simpa using here
      refine ⟨reads.mp recovers, fun _ => ⟨known, fun i _ => ⟨fun active => ?_, by simp [at_]⟩⟩⟩
      exact inactive (List.mem_of_getElem? active)
    | some k =>
      have texts := storeTexts at_ line
      have own : config.place name = k := by rw [Config.place, at_]; rfl
      obtain ⟨org, line_, -⟩ := lineFound consistent at_
      have bound : k < config.texts.length := by simpa [Config.texts] using (List.getElem?_eq_some_iff.mp line_).1
      rw [texts] at read
      obtain ⟨chosen, text, here, recovers⟩ := rereadFound fresh (fun text mem => (List.mem_or_eq_of_mem_set mem).elim
        (consistent.unbroken text) fun same => same ▸ new) read (own ▸ place) shown
      obtain rfl : config.newText name line = text := by
        rw [List.getElem?_append_left (by simpa using bound)] at here
        simpa [bound] using here
      refine ⟨reads.mp recovers, fun comment => ?_⟩
      rw [List.map_set, mark_, comment] at chosen
      obtain ⟨known, others⟩ := (chooseSetComment (by simpa using bound)).mp chosen
      refine ⟨known, fun i away => ?_⟩
      obtain ⟨active, later⟩ := others i fun same => away (same ▸ at_)
      refine ⟨active, fun j mem => ?_⟩
      obtain rfl : k = j := Option.some.inj (at_.symm.trans mem)
      exact later
  · intro good
    have stored := storeStored consistent scannable named plain found good
    obtain ⟨reread, read, same⟩ := rereadShown fresh stored.consistent stored.scannable
    exact ⟨reread, read, (same name).1.trans stored.place, (same name).2.trans stored.shown⟩

end Only

/- What the user does, on a row of the list. -/
inductive Step where
  | edit (row : ℕ) (ok : Option pgConfigLine)
  | undo (row : ℕ)
  | save (written : Bool)

def Session.step (s : Session) : Step → Session
  | .edit row ok => (s.cfgList[row]?).elim s fun name => OnEditSetting s name ok
  | .undo row => (s.cfgList[row]?).elim s (OnUndo s)
  | .save written => WriteFile s written

def Session.shows (s : Session) (name : Text) : Option pgConfigLine := (s.newLine name).or (s.config.shown name)

def Session.Writes (options : List pgSettingItem) (s : Session) : Prop :=
  ∀ name line, s.newLine name = some line → Plain line ∧ Good options s.config name line

def Edited (steps : List Step) (cfgList : List Text) (name : Text) : Prop :=
  ∃ row ok, Step.edit row ok ∈ steps ∧ cfgList[row]? = some name

def SavesGood (options : List pgSettingItem) (s : Session) (steps : List Step) : Prop :=
  ∀ before after, steps = before ++ .save true :: after → (before.foldl Session.step s).Writes options

/- The settings are those of the list, and the new ones of them are of settings that were edited. -/
structure Sound (options : List pgSettingItem) (touched : Text → Prop) (s : Session) : Prop where
  consistent : Consistent options s.config
  scannable : Scannable options s.config.texts
  distinct : s.cfgList.Nodup
  found : ∀ name ∈ s.cfgList, (s.config.find name).isSome = true ∧ Named name
  pending : ∀ name, s.newLine name ≠ none → name ∈ s.cfgList ∧ touched name

section Sessions
variable {options : List pgSettingItem} {touched : Text → Prop} {s : Session}

theorem soundReady (sound : Sound options touched s) (writes : s.Writes options) :
    Ready options s.newLine s.cfgList s.config :=
  ⟨sound.consistent, sound.scannable, sound.distinct, sound.found, fun name _ line new => writes name line new⟩

theorem soundSet (sound : Sound options touched s) {name : Text} (mem : name ∈ s.cfgList) {line : Option pgConfigLine}
    (touch : line ≠ none → touched name) : Sound options touched (s.set name line) := by
  refine { sound with pending := fun other some_ => ?_ }
  simp only [Session.set] at some_
  split_ifs at some_ with own
  · subst own
    exact ⟨mem, touch some_⟩
  · exact sound.pending other some_

theorem soundWrite (sound : Sound options touched s) (writes : s.Writes options) :
    Sound options touched (WriteFile s true) ∧ Frame touched s.config (WriteFile s true).config := by
  have ready := soundReady sound writes
  obtain ⟨consistent, scannable, found, -⟩ := storeAllKept ready
  refine ⟨⟨consistent, scannable, sound.distinct, fun name mem => ?_, fun name some_ => absurd rfl some_⟩,
    storeAllFrame ready fun name some_ => (sound.pending name some_).2⟩
  exact ⟨(found name).trans (sound.found name mem).1, (sound.found name mem).2⟩

theorem soundStep (sound : Sound options touched s) (step : Step)
    (touch : ∀ row ok name, step = .edit row ok → s.cfgList[row]? = some name → touched name)
    (writes : step = .save true → s.Writes options) :
    Sound options touched (s.step step) ∧ (s.step step).cfgList = s.cfgList ∧
      Frame touched s.config (s.step step).config := by
  cases step with
  | edit row ok =>
    rw [Session.step]
    cases at_ : s.cfgList[row]? with
    | none => exact ⟨sound, rfl, frameSelf touched s.config⟩
    | some name =>
      exact ⟨soundSet sound (List.mem_of_getElem? at_) fun _ => touch row ok name rfl at_, rfl,
        frameSelf touched s.config⟩
  | undo row =>
    rw [Session.step]
    cases at_ : s.cfgList[row]? with
    | none => exact ⟨sound, rfl, frameSelf touched s.config⟩
    | some name =>
      exact ⟨soundSet sound (List.mem_of_getElem? at_) fun some_ => absurd rfl some_, rfl, frameSelf touched s.config⟩
  | save written =>
    cases written with
    | false => exact ⟨sound, rfl, frameSelf touched s.config⟩
    | true =>
      obtain ⟨kept, frame⟩ := soundWrite sound (writes rfl)
      exact ⟨kept, rfl, frame⟩

theorem soundRun (sound : Sound options touched s) {steps : List Step}
    (touch : ∀ name, Edited steps s.cfgList name → touched name) (saves : SavesGood options s steps) :
    Sound options touched (steps.foldl Session.step s) ∧ (steps.foldl Session.step s).cfgList = s.cfgList ∧
      Frame touched s.config (steps.foldl Session.step s).config := by
  induction steps generalizing s with
  | nil => exact ⟨sound, rfl, frameSelf touched s.config⟩
  | cons step steps ih =>
    obtain ⟨kept, list, frame⟩ := soundStep sound step
      (fun row ok name own at_ => touch name ⟨row, ok, own ▸ List.mem_cons_self, at_⟩)
      (fun own => saves [] steps (by rw [own]; rfl))
    obtain ⟨kept', list', frame'⟩ := ih kept (fun name edited => touch name (by
        obtain ⟨row, ok, mem, at_⟩ := edited
        exact ⟨row, ok, List.mem_cons_of_mem _ mem, list ▸ at_⟩))
      fun before after split => saves (step :: before) after (by rw [split]; rfl)
    exact ⟨kept', list'.trans list, frameTrans frame frame'⟩

theorem writeShown (fresh : ∀ item ∈ options, item.orgLine = none) (sound : Sound options touched s)
    (writes : s.Writes options) : ∃ reread, DisplayFile options s.str = some reread ∧
      ∀ name, reread.shown name = s.shows name := by
  have ready := soundReady sound writes
  obtain ⟨consistent, scannable, -, shown, others⟩ := storeAllKept ready
  obtain ⟨reread, read, same⟩ := rereadShown fresh consistent scannable
  refine ⟨reread, ?_, fun name => (same name).2.trans ?_⟩
  · rw [← read]
    exact congrArg _ (strStored ready fun name some_ => (sound.pending name some_).1)
  · cases new : s.newLine name with
    | none => rw [others name (.inr new), Session.shows, new, Option.none_or]
    | some line =>
      have some_ : s.newLine name ≠ none := by simp [new]
      rw [shown name (sound.pending name some_).1 some_, Session.shows, new, Option.some_or]

end Sessions

/-- From a file that was opened, through edits, undone edits and writing, as long as what is written is good: what is
written reads as the list shows it; lines of settings that were not edited are left alone; and a new line of any one
setting reads as it was written, in its place, exactly when it is good. -/
theorem sessionWritten (options : List pgSettingItem) (fresh : ∀ item ∈ options, item.orgLine = none)
    (named : ∀ item ∈ options, Named item.name) (str : Text) (config : Config)
    (read : DisplayFile options str = some config) (cfgList : List Text) (distinct : cfgList.Nodup)
    (listed : ∀ name ∈ cfgList, (config.find name).isSome = true) (steps : List Step)
    (saves : SavesGood options ⟨config, cfgList, fun _ => none⟩ steps) :
    let s := steps.foldl Session.step ⟨config, cfgList, fun _ => none⟩
    (s.Writes options → ∃ reread, DisplayFile options s.str = some reread ∧
      ∀ name, reread.shown name = s.shows name) ∧
    (∀ i, i < config.lines.length → (∀ name, Edited steps cfgList name → config.orgLine name ≠ some i) →
      s.config.texts[i]? = config.texts[i]?) ∧
    ∀ name ∈ cfgList, ∀ line, Plain line →
      ((∃ reread, DisplayFile options (Session.str ⟨s.config, cfgList, only name line⟩) = some reread ∧
        reread.orgLine name = some (s.config.place name) ∧ reread.shown name = some line) ↔
        Good options s.config name line) := by
  intro s
  obtain ⟨consistent, scannable⟩ := displayed fresh read
  have start : Sound options (Edited steps cfgList) ⟨config, cfgList, fun _ => none⟩ :=
    ⟨consistent, scannable, distinct, fun name mem => ⟨listed name mem, namedFound consistent named (listed name mem)⟩,
      fun name some_ => absurd rfl some_⟩
  obtain ⟨sound, list, frame⟩ := soundRun start (fun name edited => edited) saves
  refine ⟨writeShown fresh sound, frame.text, fun name mem line plain => ?_⟩
  have inside : name ∈ s.cfgList := list ▸ mem
  rw [strOnly sound.consistent distinct mem]
  exact onlyReread fresh sound.consistent sound.scannable (sound.found name inside).2 plain (sound.found name inside).1

theorem portWritten :
    let options : List pgSettingItem := [{ name := ['p'], type := .PGC_INT }]
    let line : pgConfigLine := { value := ['3'] }
    ∃ reread, DisplayFile options ['p', ' ', '=', ' ', '3', '\n'] = some reread ∧ reread.shown ['p'] = some line := by
  intro options line
  let config : Config := ⟨[{ text := ['p', '=', '2'], item := some ['p'], value := ['2'] }],
    [{ name := ['p'], type := .PGC_INT, orgLine := some 0 }]⟩
  have named : ∀ item ∈ options, Named item.name := by
    intro item mem
    obtain rfl := List.mem_singleton.mp mem
    exact ⟨by simp, by simp [keywordLetter]⟩
  have written := (sessionWritten options (by simp [options]) named ['p', '=', '2', '\n'] config (by decide)
    [['p']] (by simp) (by simp [config, Config.find]) [.edit 0 (some line)] (fun before after split => by
      cases before <;> simp at split)).1
  obtain ⟨reread, read, shown⟩ := written (fun name new pending => by
    have own : name = ['p'] ∧ new = line := by
      by_cases own : name = ['p']
      · subst own
        exact ⟨rfl, (Option.some.inj pending).symm⟩
      · have none_ : (if name = ['p'] then some line else none) = some new := pending
        rw [if_neg own] at none_
        cases none_
    obtain ⟨rfl, rfl⟩ := own
    refine ⟨⟨by simp [line], by simp [line]⟩, ⟨?_, fun _ => ?_, fun some_ => absurd rfl some_⟩,
      fun comment => absurd comment Bool.false_ne_true⟩
    · exact pgConfigType.noConfusion
    · exact ⟨by simp [line], by simp [line, indentLetter, wxStrchr], by simp [line, quoteLetter, wxStrchr]⟩)
  exact ⟨reread, read, shown ['p']⟩

end PgAdmin.frmMainConfig
