import PgAdmin.XmlStream

/-! The favourites and the macros of the query tool: what saveFolder() and saveList() write and what the
constructors read again. -/
namespace PgAdmin.favourites
open PgsObjects (Text)
open XmlStream

def titleName : Text := "title".toList
def favouriteName : Text := "favourite".toList
def folderName : Text := "folder".toList
def favouritesName : Text := "favourites".toList

inductive queryFavouriteItem where
  | favourite (title contents : Text)
  | folder (title : Text) (favourites : List queryFavouriteItem)

namespace queryFavouriteItem

mutual
def save : queryFavouriteItem → List Call
  | folder title items =>
    [.StartElement folderName, .WriteAttribute titleName title] ++ saveFolder items ++ [.EndElement]
  | favourite title contents =>
    [.StartElement favouriteName, .WriteAttribute titleName title, .WriteString contents, .EndElement]
def saveFolder : List queryFavouriteItem → List Call
  | [] => []
  | item :: items => save item ++ saveFolder items
end

/- xmlTextWriterEndDocument() ends the element that is still open. -/
def SaveFavourites (items : List queryFavouriteItem) : List Call :=
  [.StartElement favouritesName] ++ saveFolder items ++ [.EndElement]

section Reading
variable {library : Library}

/- The loop of the constructor that reads: the items of the folder, and where it leaves the reader to the folder
around it. -/
def read (reader : library.Reader) :
    List queryFavouriteItem × {rest : library.Reader // library.left rest ≤ library.left reader} :=
  match moved : library.Read reader with
  | none => ([], ⟨reader, le_rfl⟩)
  | some node =>
    have shorter := library.shorter reader node moved
    let next : List queryFavouriteItem × {rest : library.Reader // library.left rest ≤ library.left reader} :=
      ((read node).1, ⟨(read node).2.1, (read node).2.2.trans shorter.le⟩)
    if library.NodeType node = END then ([], ⟨node, shorter.le⟩)
    else if library.NodeType node ≠ START then next
    else match library.GetAttribute node titleName with
    | none => next
    | some title =>
      if library.ConstName node = favouriteName then
        match library.ReadString node with
        | none => next
        | some cont =>
          have skipped := (SkipToEndElement node).2
          let others := read (SkipToEndElement node).1
          (favourite title cont :: others.1, ⟨others.2.1, (others.2.2.trans skipped).trans shorter.le⟩)
      else if library.ConstName node = folderName then
        if library.IsEmptyElement node then (folder title [] :: next.1, next.2)
        else
          have inner := (read node).2.2
          let others := read (read node).2.1
          (folder title (read node).1 :: others.1, ⟨others.2.1, (others.2.2.trans inner).trans shorter.le⟩)
      else next
termination_by library.left reader
decreasing_by all_goals first
  | exact shorter
  | exact lt_of_le_of_lt skipped shorter
  | exact lt_of_le_of_lt inner shorter

def readRest (reader : library.Reader) : List queryFavouriteItem × library.Reader :=
  ((read reader).1, (read reader).2.1)

def queryFavouriteFolder (reader : library.Reader) : List queryFavouriteItem :=
  if library.IsEmptyElement reader then [] else (readRest reader).1

end Reading

/- Nothing when the file cannot be read. -/
def LoadFavourites (library : Library) (calls : List Call) : Option (List queryFavouriteItem) :=
  (library.Read (library.reader calls)).map queryFavouriteFolder

section Shown
variable {library : Library} {reader node last : library.Reader}

theorem readNext (next : Next library reader node) :
    ∃ before, library.Read before = some node ∧ readRest reader = readRest before := by
  induction next with
  | here moved _ => exact ⟨_, moved, rfl⟩
  | later moved start stop _ ih =>
    obtain ⟨before, last, same⟩ := ih
    refine ⟨before, last, Eq.trans ?_ same⟩
    rw [readRest, read]
    split
    · rename_i none
      cases none.symm.trans moved
    · rename_i found
      cases found.symm.trans moved
      simp [stop, start, readRest]

theorem readEnd (next : Next library reader node) (type : library.NodeType node = END) :
    readRest reader = ([], node) := by
  obtain ⟨before, moved, same⟩ := readNext next
  rw [same, readRest, read]
  split
  · rename_i none
    cases none.symm.trans moved
  · rename_i found
    cases found.symm.trans moved
    simp [type]

theorem readFavourite {title contents : Text} {stop : library.Reader} (next : Next library reader node)
    (starts : Starts library node favouriteName [(titleName, title)] false)
    (text : library.ReadString node = if contents = [] then none else some contents)
    (ends : Next library node stop) (type : library.NodeType stop = END) :
    readRest reader = if contents = [] then ([], stop)
      else (favourite title contents :: (readRest stop).1, (readRest stop).2) := by
  obtain ⟨before, moved, same⟩ := readNext next
  have titled : library.GetAttribute node titleName = some title := by simp [starts.given]
  have other : START ≠ END := startNotEnd
  rw [same, readRest, read]
  split
  · rename_i none
    cases none.symm.trans moved
  · rename_i found
    cases found.symm.trans moved
    by_cases empty : contents = []
    · have closed := readEnd ends type
      rw [if_pos empty] at text ⊢
      simpa [starts.type, other, titled, starts.name, text, readRest] using closed
    · have skipped := congrArg readRest (skipNext ends type)
      rw [if_neg empty] at text ⊢
      simpa [starts.type, other, titled, starts.name, text, readRest] using skipped

theorem readFolder {title : Text} {isEmpty : Bool} (next : Next library reader node)
    (starts : Starts library node folderName [(titleName, title)] isEmpty) :
    readRest reader = if isEmpty then (folder title [] :: (readRest node).1, (readRest node).2)
      else (folder title (readRest node).1 :: (readRest (readRest node).2).1, (readRest (readRest node).2).2) := by
  obtain ⟨before, moved, same⟩ := readNext next
  have titled : library.GetAttribute node titleName = some title := by simp [starts.given]
  have type : START ≠ END := startNotEnd
  have other : folderName ≠ favouriteName := by decide
  rw [same, readRest, read]
  split
  · rename_i none
    cases none.symm.trans moved
  · rename_i found
    cases found.symm.trans moved
    cases isEmpty <;> simp [starts.type, type, titled, starts.name, other, starts.isEmpty, readRest]

mutual
def element : queryFavouriteItem → Element
  | folder title items => .parent folderName [(titleName, title)] (elements items)
  | favourite title contents => .string favouriteName [(titleName, title)] contents
def elements : List queryFavouriteItem → List Element
  | [] => []
  | item :: items => element item :: elements items
end

mutual
theorem saveCalls (item : queryFavouriteItem) : save item = (element item).calls := by
  cases item with
  | favourite title contents => rfl
  | folder title items =>
    rw [save, saveFolderCalls items]
    rfl
theorem saveFolderCalls (items : List queryFavouriteItem) : saveFolder items = childCalls (elements items) := by
  cases items with
  | nil => rfl
  | cons item items =>
    rw [saveFolder, saveCalls item, saveFolderCalls items]
    rfl
end

mutual
def Filled : queryFavouriteItem → Prop
  | folder _ items => AllFilled items
  | favourite _ contents => contents ≠ []
def AllFilled : List queryFavouriteItem → Prop
  | [] => True
  | item :: items => item.Filled ∧ AllFilled items
end

theorem readShown {shown : List Element} (shows : Shows library reader shown last)
    (items : List queryFavouriteItem) (same : elements items = shown) (filled : AllFilled items) :
    readRest reader = (items ++ (readRest last).1, (readRest last).2) := by
  induction shows generalizing items with
  | nil =>
    cases items with
    | nil => rfl
    | cons item items => cases same
  | string next starts text ends type _ ih =>
    cases items with
    | nil => cases same
    | cons item items =>
      cases item with
      | folder title inside => cases same
      | favourite title contents =>
        cases same
        obtain ⟨full, filled⟩ : Filled (favourite title _) ∧ AllFilled items := filled
        rw [readFavourite next starts text ends type, if_neg full, ih items rfl filled]
        rfl
  | single next starts _ ih =>
    cases items with
    | nil => cases same
    | cons item items =>
      cases item with
      | favourite title contents => cases same
      | folder title inside =>
        obtain ⟨parent, rfl⟩ := List.cons.inj same
        obtain ⟨rfl, rfl, none⟩ := Element.parent.inj parent
        cases inside with
        | cons first inside => cases none
        | nil =>
          rw [readFolder next starts, if_pos rfl, ih items rfl filled.2]
          rfl
  | parent some_ next starts _ ends type _ inside ih =>
    cases items with
    | nil => cases same
    | cons item items =>
      cases item with
      | favourite title contents => cases same
      | folder title children =>
        cases same
        obtain ⟨first, filled⟩ : AllFilled children ∧ AllFilled items := filled
        have all := inside children rfl first
        rw [readEnd ends type, List.append_nil] at all
        rw [readFolder next starts, if_neg Bool.false_ne_true, all, ih items rfl filled]
        rfl

theorem readFilled (nothing : ∀ node, library.ReadString node ≠ some []) (reader : library.Reader) :
    AllFilled (readRest reader).1 := by
  unfold readRest
  fun_induction read reader with
  | case1 => trivial
  | case2 => trivial
  | case3 _ _ _ _ _ _ _ ih => exact ih
  | case4 _ _ _ _ _ _ _ _ ih => exact ih
  | case5 _ _ _ _ _ _ _ _ _ _ _ ih => exact ih
  | case6 reader node moved shorter stop start title titled favourite cont text skipped others _ ih =>
    refine ⟨fun none => nothing node ?_, ih⟩
    rw [text, none]
  | case7 _ _ _ _ _ _ _ _ _ _ _ _ ih => exact ⟨trivial, ih⟩
  | case8 _ _ _ _ _ _ _ _ _ _ _ _ _ inside others => exact ⟨inside, others⟩
  | case9 _ _ _ _ _ _ _ _ _ _ _ ih => exact ih

end Shown

section Representable
variable (representable : Text → Prop)

mutual
def Representable : queryFavouriteItem → Prop
  | folder title items => representable title ∧ AllRepresentable items
  | favourite title contents => representable title ∧ representable contents
def AllRepresentable : List queryFavouriteItem → Prop
  | [] => True
  | item :: items => item.Representable ∧ AllRepresentable items
end

variable {representable}

mutual
theorem elementTexts (item : queryFavouriteItem) (texts : item.Representable representable) :
    ∀ text ∈ item.element.texts, representable text := by
  cases item with
  | favourite title contents => simpa [element, Element.texts, Representable, and_comm] using texts
  | folder title items =>
    have inside := elementsTexts items texts.2
    simpa [element, Element.texts, or_imp, forall_and, texts.1] using inside
theorem elementsTexts (items : List queryFavouriteItem) (texts : AllRepresentable representable items) :
    ∀ text ∈ childTexts (elements items), representable text := by
  cases items with
  | nil => exact fun text none => absurd none List.not_mem_nil
  | cons item items =>
    have first := elementTexts item texts.1
    have others := elementsTexts items texts.2
    rw [elements, childTexts]
    exact fun text inside => (List.mem_append.mp inside).elim (first text) (others text)
end

end Representable

section Files
variable {library : Library} {representable : Text → Prop}

theorem favouritesRead (faithful : Faithful library representable) {items : List queryFavouriteItem}
    (texts : AllRepresentable representable items) (filled : AllFilled items) :
    LoadFavourites library (SaveFavourites items) = some items := by
  have calls : SaveFavourites items = (Element.parent favouritesName [] (elements items)).calls := by
    rw [SaveFavourites, saveFolderCalls]
    simp [Element.calls, attributeCalls]
  have legal := elementsTexts items texts
  obtain ⟨root, last, moved, type, shows⟩ := faithful.shows (.parent favouritesName [] (elements items))
    (by simpa [Element.texts] using legal)
  obtain ⟨starts, some_⟩ := firstNode moved type shows
  rw [LoadFavourites, calls, moved, Option.map_some, queryFavouriteFolder, starts.isEmpty]
  cases items with
  | nil => rfl
  | cons item others =>
    obtain ⟨inner, stop, inside, ends, type⟩ := some_ (List.cons_ne_nil _ _)
    have all := readShown inside (item :: others) rfl filled
    rw [readEnd ends type, List.append_nil] at all
    rw [elements, List.isEmpty_cons, if_neg Bool.false_ne_true, all]

theorem favouritesFilled (faithful : Faithful library representable) {calls : List Call}
    {items : List queryFavouriteItem} (loaded : LoadFavourites library calls = some items) : AllFilled items := by
  obtain ⟨root, -, rfl⟩ := Option.map_eq_some_iff.mp loaded
  unfold queryFavouriteFolder
  split
  · trivial
  · exact readFilled faithful.nothing root

end Files

end queryFavouriteItem
end PgAdmin.favourites

namespace PgAdmin.macros
open PgsObjects (Text)
open XmlStream

def keyName : Text := "key".toList
def nameName : Text := "name".toList
def macroName : Text := "macro".toList
def macrosName : Text := "macros".toList

structure queryMacroItem where
  key : Text
  name : Text
  query : Text

namespace queryMacroItem

def calls (item : queryMacroItem) : List Call :=
  [.StartElement macroName, .WriteAttribute keyName item.key, .WriteAttribute nameName item.name,
    .WriteString item.query, .EndElement]

def element (item : queryMacroItem) : Element :=
  .string macroName [(keyName, item.key), (nameName, item.name)] item.query

def texts (item : queryMacroItem) : List Text := [item.key, item.name, item.query]

end queryMacroItem

def saveList (items : List queryMacroItem) : List Call := items.flatMap queryMacroItem.calls

def SaveMacros (items : List queryMacroItem) : List Call :=
  [.StartElement macrosName] ++ saveList items ++ [.EndElement]

section Reading
variable {library : Library}

def read (reader : library.Reader) : List queryMacroItem :=
  match moved : library.Read reader with
  | none => []
  | some node =>
    have _shorter := library.shorter reader node moved
    if library.NodeType node = END then []
    else if library.NodeType node ≠ START then read node
    else match library.GetAttribute node keyName, library.GetAttribute node nameName with
    | some key, some name =>
      if library.ConstName node = macroName then
        match library.ReadString node with
        | none => read node
        | some query =>
          have _skipped := (SkipToEndElement node).2
          ⟨key, name, query⟩ :: read (SkipToEndElement node).1
      else read node
    | _, _ => read node
termination_by library.left reader
decreasing_by all_goals first
  | exact _shorter
  | exact lt_of_le_of_lt _skipped _shorter

def queryMacroList (reader : library.Reader) : List queryMacroItem :=
  if library.IsEmptyElement reader then [] else read reader

end Reading

def LoadMacros (library : Library) (calls : List Call) : Option (List queryMacroItem) :=
  (library.Read (library.reader calls)).map queryMacroList

section Shown
variable {library : Library} {reader node last : library.Reader}

theorem readNext (next : Next library reader node) :
    ∃ before, library.Read before = some node ∧ read reader = read before := by
  induction next with
  | here moved _ => exact ⟨_, moved, rfl⟩
  | later moved start stop _ ih =>
    obtain ⟨before, last, same⟩ := ih
    refine ⟨before, last, Eq.trans ?_ same⟩
    rw [read]
    split
    · rename_i none
      cases none.symm.trans moved
    · rename_i found
      cases found.symm.trans moved
      simp [stop, start]

theorem readEnd (next : Next library reader node) (type : library.NodeType node = END) : read reader = [] := by
  obtain ⟨before, moved, same⟩ := readNext next
  rw [same, read]
  split
  · rfl
  · rename_i found
    cases found.symm.trans moved
    simp [type]

theorem readMacro {item : queryMacroItem} {stop : library.Reader} (next : Next library reader node)
    (starts : Starts library node macroName [(keyName, item.key), (nameName, item.name)] false)
    (text : library.ReadString node = some item.query) (ends : Next library node stop)
    (type : library.NodeType stop = END) : read reader = item :: read stop := by
  obtain ⟨before, moved, same⟩ := readNext next
  have start : START ≠ END := startNotEnd
  have other : keyName ≠ nameName := by decide
  have keyed : library.GetAttribute node keyName = some item.key := by simp [starts.given]
  have named : library.GetAttribute node nameName = some item.name := by simp [starts.given, other]
  have skipped := skipNext ends type
  rw [same, read]
  split
  · rename_i none
    cases none.symm.trans moved
  · rename_i found
    cases found.symm.trans moved
    simp only [starts.type, start, keyed, named, starts.name, text, skipped]
    simp

theorem readShown {items : List queryMacroItem} (filled : ∀ item ∈ items, item.query ≠ [])
    (shows : Shows library reader (items.map queryMacroItem.element) last) : read reader = items ++ read last := by
  induction items generalizing reader with
  | nil =>
    cases shows
    rfl
  | cons item items ih =>
    obtain ⟨full, others⟩ := List.forall_mem_cons.mp filled
    cases shows with
    | string next starts text ends type rest =>
      rw [if_neg full] at text
      rw [readMacro next starts text ends type, ih others rest]
      rfl

theorem readFilled (nothing : ∀ node, library.ReadString node ≠ some []) (reader : library.Reader) :
    ∀ item ∈ read reader, item.query ≠ [] := by
  have none : ∀ item ∈ ([] : List queryMacroItem), item.query ≠ [] := fun _ inside => absurd inside List.not_mem_nil
  fun_induction read reader with
  | case1 => exact none
  | case2 => exact none
  | case5 reader node moved shorter stop start key name named keyed tagged query text skipped ih =>
    refine List.forall_mem_cons.mpr ⟨fun empty => nothing node ?_, ih⟩
    rw [text, ← empty]
  | case3 _ _ _ _ _ _ ih => exact ih
  | case4 _ _ _ _ _ _ _ _ _ _ _ _ ih => exact ih
  | case6 _ _ _ _ _ _ _ _ _ _ _ ih => exact ih
  | case7 _ _ _ _ _ _ _ ih => exact ih

end Shown

section Files
variable {library : Library} {representable : Text → Prop}

theorem listCalls (items : List queryMacroItem) : childCalls (items.map queryMacroItem.element) = saveList items := by
  induction items with
  | nil => rfl
  | cons item items ih =>
    rw [List.map_cons, childCalls, ih]
    rfl

theorem listTexts {items : List queryMacroItem} {text : Text}
    (inside : text ∈ childTexts (items.map queryMacroItem.element)) : ∃ item ∈ items, text ∈ item.texts := by
  induction items with
  | nil => exact absurd inside List.not_mem_nil
  | cons item items ih =>
    rw [List.map_cons, childTexts] at inside
    rcases List.mem_append.mp inside with own | later
    · refine ⟨item, List.mem_cons_self, ?_⟩
      have either : text = item.query ∨ text = item.key ∨ text = item.name := by
        simpa [queryMacroItem.element, Element.texts] using own
      simp only [queryMacroItem.texts, List.mem_cons, List.not_mem_nil, or_false]
      tauto
    · obtain ⟨other, member, text⟩ := ih later
      exact ⟨other, List.mem_cons_of_mem item member, text⟩

theorem macrosRead (faithful : Faithful library representable) {items : List queryMacroItem}
    (texts : ∀ item ∈ items, ∀ text ∈ item.texts, representable text) (filled : ∀ item ∈ items, item.query ≠ []) :
    LoadMacros library (SaveMacros items) = some items := by
  have calls : SaveMacros items = (Element.parent macrosName [] (items.map queryMacroItem.element)).calls := by
    rw [SaveMacros, Element.calls, listCalls]
    simp [attributeCalls]
  obtain ⟨root, last, moved, type, shows⟩ := faithful.shows
    (.parent macrosName [] (items.map queryMacroItem.element)) fun text inside => by
      obtain ⟨item, member, text⟩ := listTexts inside
      exact texts item member _ text
  obtain ⟨starts, some_⟩ := firstNode moved type shows
  rw [LoadMacros, calls, moved, Option.map_some, queryMacroList, starts.isEmpty]
  cases items with
  | nil => rfl
  | cons item others =>
    obtain ⟨inner, stop, inside, ends, type⟩ := some_ (List.cons_ne_nil _ _)
    rw [List.map_cons, List.isEmpty_cons, if_neg Bool.false_ne_true, readShown filled inside, readEnd ends type,
      List.append_nil]

theorem macrosFilled (faithful : Faithful library representable) {calls : List Call} {items : List queryMacroItem}
    (loaded : LoadMacros library calls = some items) : ∀ item ∈ items, item.query ≠ [] := by
  obtain ⟨root, -, rfl⟩ := Option.map_eq_some_iff.mp loaded
  unfold queryMacroList
  split
  · exact fun item none => absurd none List.not_mem_nil
  · exact readFilled faithful.nothing root

end Files
end PgAdmin.macros

namespace PgAdmin.favourites
open queryFavouriteItem XmlStream
open PgsObjects (Text)

theorem savedRead {library : Library} {representable : Text → Prop} (faithful : Faithful library representable)
    (items : List queryFavouriteItem) (texts : AllRepresentable representable items)
    (list : List macros.queryMacroItem) (listed : ∀ item ∈ list, ∀ text ∈ item.texts, representable text) :
    (LoadFavourites library (SaveFavourites items) = some items ↔ AllFilled items) ∧
      (macros.LoadMacros library (macros.SaveMacros list) = some list ↔ ∀ item ∈ list, item.query ≠ []) :=
  ⟨⟨favouritesFilled faithful, favouritesRead faithful texts⟩,
    ⟨macros.macrosFilled faithful, macros.macrosRead faithful listed⟩⟩

def someFavourites : List queryFavouriteItem :=
  [.folder "daily".toList [.favourite "users".toList "SELECT * FROM users".toList], .folder [] []]

def someMacros : List macros.queryMacroItem := [⟨"Alt-F1".toList, "now".toList, "SELECT now()".toList⟩]

theorem someRead : LoadFavourites indented (SaveFavourites someFavourites) = some someFavourites ∧
    macros.LoadMacros indented (macros.SaveMacros someMacros) = some someMacros := by
  have all := savedRead indentedFaithful someFavourites
    ⟨⟨trivial, ⟨trivial, trivial⟩, trivial⟩, ⟨trivial, trivial⟩, trivial⟩ someMacros fun _ _ _ _ => trivial
  refine ⟨all.1.mpr ⟨⟨List.cons_ne_nil _ _, trivial⟩, trivial, trivial⟩, all.2.mpr fun item member => ?_⟩
  cases List.mem_singleton.mp member
  exact List.cons_ne_nil _ _

/- The end of the favourite without contents is taken for that of the folder around it. -/
theorem savedLost : ¬ ∀ (library : Library) (representable : Text → Prop), Faithful library representable →
    ∀ items, AllRepresentable representable items → LoadFavourites library (SaveFavourites items) = some items := by
  intro all
  have same := all indented (fun _ => True) indentedFaithful
    [.favourite "draft".toList [], .favourite "users".toList "SELECT * FROM users".toList]
    ⟨⟨trivial, trivial⟩, ⟨trivial, trivial⟩, trivial⟩
  exact absurd rfl (favouritesFilled indentedFaithful same).1

end PgAdmin.favourites
