import PgAdmin.PgsObjects

/-! Files that are written by calls and read node by node. The library that does it is a parameter: what its reader
shows of a file that the calls of an element have written is a hypothesis. -/
namespace XmlStream
open PgAdmin.PgsObjects (Text)

abbrev Attributes := List (Text × Text)

inductive Call where
  | StartElement (name : Text)
  | WriteAttribute (name value : Text)
  | WriteString (content : Text)
  | EndElement

/- reader is the reader for the file that the calls have written. Read moves it to the next node, and gives nothing
at the end of the file, which a reader gets to. -/
structure Library where
  Reader : Type
  reader : List Call → Reader
  Read : Reader → Option Reader
  NodeType : Reader → ℕ
  ConstName : Reader → Text
  IsEmptyElement : Reader → Bool
  GetAttribute : Reader → Text → Option Text
  ReadString : Reader → Option Text
  left : Reader → ℕ
  shorter : ∀ reader next, Read reader = some next → left next < left reader

def START : ℕ := 1
def END : ℕ := 15

inductive Element where
  | string (name : Text) (attributes : Attributes) (content : Text)
  | parent (name : Text) (attributes : Attributes) (children : List Element)

def attributeCalls (attributes : Attributes) : List Call :=
  attributes.map fun (name, value) => .WriteAttribute name value

mutual
def Element.calls : Element → List Call
  | .string name attributes content =>
    .StartElement name :: (attributeCalls attributes ++ [.WriteString content, .EndElement])
  | .parent name attributes children =>
    .StartElement name :: (attributeCalls attributes ++ (childCalls children ++ [.EndElement]))
def childCalls : List Element → List Call
  | [] => []
  | element :: elements => element.calls ++ childCalls elements
end

mutual
def Element.texts : Element → List Text
  | .string _ attributes content => content :: attributes.map Prod.snd
  | .parent _ attributes children => attributes.map Prod.snd ++ childTexts children
def childTexts : List Element → List Text
  | [] => []
  | element :: elements => element.texts ++ childTexts elements
end

section Reading
variable (library : Library)

inductive Next : library.Reader → library.Reader → Prop where
  | here {reader node : library.Reader} (read : library.Read reader = some node)
      (type : library.NodeType node = START ∨ library.NodeType node = END) : Next reader node
  | later {reader other node : library.Reader} (read : library.Read reader = some other)
      (start : library.NodeType other ≠ START) (stop : library.NodeType other ≠ END) (next : Next other node) :
      Next reader node

structure Starts (node : library.Reader) (name : Text) (attributes : Attributes) (isEmpty : Bool) : Prop where
  type : library.NodeType node = START
  name : library.ConstName node = name
  isEmpty : library.IsEmptyElement node = isEmpty
  given : ∀ name, library.GetAttribute node name =
    (attributes.find? fun given => given.1 == name).map Prod.snd

/- The elements come next and the reader is left at the last node of them. An element with a string is a start and an
end, also when the string is empty, and an element with nothing in it is one node. -/
inductive Shows : library.Reader → List Element → library.Reader → Prop where
  | nil {reader : library.Reader} : Shows reader [] reader
  | string {reader node stop last : library.Reader} {name content : Text} {attributes : Attributes}
      {elements : List Element} (next : Next library reader node) (starts : Starts library node name attributes false)
      (text : library.ReadString node = if content = [] then none else some content)
      (ends : Next library node stop) (type : library.NodeType stop = END) (rest : Shows stop elements last) :
      Shows reader (.string name attributes content :: elements) last
  | single {reader node last : library.Reader} {name : Text} {attributes : Attributes} {elements : List Element}
      (next : Next library reader node) (starts : Starts library node name attributes true)
      (rest : Shows node elements last) : Shows reader (.parent name attributes [] :: elements) last
  | parent {reader node inner stop last : library.Reader} {name : Text} {attributes : Attributes}
      {children elements : List Element} (some_ : children ≠ []) (next : Next library reader node)
      (starts : Starts library node name attributes false) (inside : Shows node children inner)
      (ends : Next library inner stop) (type : library.NodeType stop = END) (rest : Shows stop elements last) :
      Shows reader (.parent name attributes children :: elements) last

/- The reader shows an element that has been written, from the first node on, if its texts can stand in a file.
ReadString gives nothing where there is no text. -/
structure Faithful (representable : Text → Prop) : Prop where
  shows : ∀ element : Element, (∀ text ∈ element.texts, representable text) →
    ∃ root last, library.Read (library.reader element.calls) = some root ∧ library.NodeType root = START ∧
      Shows library (library.reader element.calls) [element] last
  nothing : ∀ node, library.ReadString node ≠ some []

end Reading

section Skipping
variable {library : Library}

theorem startNotEnd : START ≠ END := by decide

def SkipToEndElement (reader : library.Reader) : {rest // library.left rest ≤ library.left reader} :=
  match read : library.Read reader with
  | none => ⟨reader, le_rfl⟩
  | some next =>
    have shorter := library.shorter reader next read
    if library.NodeType next = END then ⟨next, shorter.le⟩
    else ⟨(SkipToEndElement next).1, (SkipToEndElement next).2.trans shorter.le⟩
termination_by library.left reader

theorem skipNext {reader stop : library.Reader} (next : Next library reader stop)
    (type : library.NodeType stop = END) : (SkipToEndElement reader).1 = stop := by
  induction next with
  | here read _ =>
    rw [SkipToEndElement]
    split
    · rename_i none
      rw [none] at read
      cases read
    · rename_i found
      cases found.symm.trans read
      rw [if_pos type]
  | later read _ stop _ ih =>
    rw [SkipToEndElement]
    split
    · rename_i none
      rw [none] at read
      cases read
    · rename_i found
      cases found.symm.trans read
      rw [if_neg stop]
      exact ih type

theorem firstNode {reader root last : library.Reader} {name : Text} {attributes : Attributes}
    {children : List Element} (read : library.Read reader = some root) (type : library.NodeType root = START)
    (shows : Shows library reader [.parent name attributes children] last) :
    Starts library root name attributes children.isEmpty ∧
      (children ≠ [] → ∃ inner stop, Shows library root children inner ∧ Next library inner stop ∧
        library.NodeType stop = END) := by
  have first : ∀ {node}, Next library reader node → node = root := by
    rintro node (⟨found, -⟩ | ⟨found, start, -, -⟩)
    · exact Option.some.inj (found.symm.trans read)
    · exact absurd (Option.some.inj (found.symm.trans read) ▸ type) start
  cases shows with
  | single next starts rest =>
    cases first next
    exact ⟨starts, fun some_ => absurd rfl some_⟩
  | parent some_ next starts inside ends type rest =>
    cases first next
    rw [List.isEmpty_eq_false_iff.mpr some_]
    exact ⟨starts, fun _ => ⟨_, _, inside, ends, type⟩⟩

theorem showsBefore {first second last : library.Reader} {element : Element} {elements : List Element}
    (next : ∀ node, Next library second node → Next library first node)
    (shows : Shows library second (element :: elements) last) : Shows library first (element :: elements) last := by
  cases shows with
  | string found starts text ends type rest => exact .string (next _ found) starts text ends type rest
  | single found starts rest => exact .single (next _ found) starts rest
  | parent some_ found starts inside ends type rest => exact .parent some_ (next _ found) starts inside ends type rest

end Skipping

/-! A library that writes with indentation. -/
section Indented

inductive Node where
  | element (name : Text) (attributes : Attributes) (isEmpty : Bool)
  | text (content : Text)
  | endElement

structure Writer where
  tag : Option (Text × Attributes)
  depth : ℕ
  doindent : Bool
  nodes : List Node

def indentation (depth : ℕ) : Node := .text ('\n' :: List.replicate depth ' ')

def texts (content : Text) : List Node := if content = [] then [] else [.text content]

def Writer.closed (writer : Writer) : List Node :=
  writer.nodes ++ match writer.tag with
    | some (name, attributes) => [.element name attributes false]
    | none => []

def Writer.call (writer : Writer) : Call → Writer
  | .StartElement name => {
    tag := some (name, [])
    depth := writer.depth + 1
    doindent := writer.doindent
    nodes := writer.closed ++ if writer.depth = 0 then [] else [indentation writer.depth] }
  | .WriteAttribute name value =>
    { writer with tag := writer.tag.map fun (element, attributes) => (element, attributes ++ [(name, value)]) }
  | .WriteString content =>
    { writer with tag := none, doindent := false, nodes := writer.closed ++ texts content }
  | .EndElement => {
    tag := none
    depth := writer.depth - 1
    doindent := true
    nodes := writer.nodes ++ match writer.tag with
      | some (name, attributes) => [.element name attributes true]
      | none => (if writer.doindent then [indentation (writer.depth - 1)] else []) ++ [.endElement] }

def Writer.write (writer : Writer) (calls : List Call) : Writer := calls.foldl Writer.call writer

structure NodeReader where
  node : Option Node
  rest : List Node

def NodeReader.Read (reader : NodeReader) : Option NodeReader :=
  match reader.rest with
  | [] => none
  | node :: rest => some ⟨some node, rest⟩

theorem readShorter (reader next : NodeReader) (read : reader.Read = some next) :
    next.rest.length < reader.rest.length := by
  obtain ⟨current, nodes⟩ := reader
  cases nodes with
  | nil => cases read
  | cons node nodes =>
    cases read
    exact Nat.lt_succ_self _

def content : ℕ → List Node → Text
  | _, [] => []
  | depth, .text text :: rest => text ++ content depth rest
  | depth, .element _ _ isEmpty :: rest => content (if isEmpty then depth else depth + 1) rest
  | 0, .endElement :: _ => []
  | depth + 1, .endElement :: rest => content depth rest

def NodeReader.NodeType (reader : NodeReader) : ℕ :=
  match reader.node with
  | some (.element ..) => START
  | some .endElement => END
  | _ => 3

def NodeReader.ConstName (reader : NodeReader) : Text :=
  match reader.node with
  | some (.element name _ _) => name
  | _ => []

def NodeReader.IsEmptyElement (reader : NodeReader) : Bool :=
  match reader.node with
  | some (.element _ _ isEmpty) => isEmpty
  | _ => false

def NodeReader.GetAttribute (reader : NodeReader) (name : Text) : Option Text :=
  match reader.node with
  | some (.element _ attributes _) => (attributes.find? fun given => given.1 == name).map Prod.snd
  | _ => none

def NodeReader.ReadString (reader : NodeReader) : Option Text :=
  match reader.node with
  | some (.element _ _ false) => if content 0 reader.rest = [] then none else some (content 0 reader.rest)
  | _ => none

def written (calls : List Call) : NodeReader := ⟨none, (Writer.write ⟨none, 0, false, []⟩ calls).nodes⟩

def indented : Library where
  Reader := NodeReader
  reader := written
  Read := NodeReader.Read
  NodeType := NodeReader.NodeType
  ConstName := NodeReader.ConstName
  IsEmptyElement := NodeReader.IsEmptyElement
  GetAttribute := NodeReader.GetAttribute
  ReadString := NodeReader.ReadString
  left := fun reader => reader.rest.length
  shorter := readShorter

mutual
def Element.nodes : ℕ → Element → List Node
  | _, .string name attributes content => .element name attributes false :: (texts content ++ [.endElement])
  | depth, .parent name attributes children =>
    .element name attributes children.isEmpty :: (childNodes (depth + 1) children ++
      if children.isEmpty then [] else [indentation depth, .endElement])
def childNodes : ℕ → List Element → List Node
  | _, [] => []
  | depth, element :: elements => indentation depth :: (element.nodes depth ++ childNodes depth elements)
end

def Writer.wrote (writer : Writer) (added : List Node) : Writer where
  tag := none
  depth := writer.depth
  doindent := true
  nodes := writer.closed ++ added

theorem writeAppend (writer : Writer) (first later : List Call) :
    writer.write (first ++ later) = (writer.write first).write later := List.foldl_append

theorem attributesWritten (attributes given : Attributes) (name : Text) (depth : ℕ) (doindent : Bool)
    (nodes : List Node) :
    Writer.write ⟨some (name, given), depth, doindent, nodes⟩ (attributeCalls attributes) =
      ⟨some (name, given ++ attributes), depth, doindent, nodes⟩ := by
  induction attributes generalizing given with
  | nil => rw [List.append_nil]; rfl
  | cons first attributes ih =>
    have next := ih (given ++ [first])
    rw [List.append_assoc, List.singleton_append] at next
    exact next

def Writer.indent (writer : Writer) : List Node := if writer.depth = 0 then [] else [indentation writer.depth]

mutual
theorem elementWritten (element : Element) (writer : Writer) :
    writer.write element.calls = writer.wrote (writer.indent ++ element.nodes writer.depth) := by
  cases element with
  | string name attributes content =>
    have started := attributesWritten attributes [] name (writer.depth + 1) writer.doindent
      (writer.closed ++ writer.indent)
    rw [List.nil_append] at started
    show Writer.write ⟨some (name, []), writer.depth + 1, writer.doindent, writer.closed ++ writer.indent⟩
      (attributeCalls attributes ++ [.WriteString content, .EndElement]) = _
    rw [writeAppend, started]
    simp [Writer.write, Writer.call, Writer.closed, Writer.wrote, Element.nodes]
  | parent name attributes children =>
    have started := attributesWritten attributes [] name (writer.depth + 1) writer.doindent
      (writer.closed ++ writer.indent)
    rw [List.nil_append] at started
    show Writer.write ⟨some (name, []), writer.depth + 1, writer.doindent, writer.closed ++ writer.indent⟩
      (attributeCalls attributes ++ (childCalls children ++ [.EndElement])) = _
    rw [writeAppend, started, writeAppend, childrenWritten children _ (Nat.succ_ne_zero _)]
    cases children with
    | nil => simp [Writer.write, Writer.call, Writer.wrote, Element.nodes, childNodes, Writer.closed]
    | cons first children => simp [Writer.write, Writer.call, Writer.closed, Writer.wrote, Element.nodes]
theorem childrenWritten (elements : List Element) (writer : Writer) (inside : writer.depth ≠ 0) :
    writer.write (childCalls elements) =
      if elements.isEmpty then writer else writer.wrote (childNodes writer.depth elements) := by
  cases elements with
  | nil => rfl
  | cons element elements =>
    rw [childCalls, writeAppend, elementWritten element writer, childrenWritten elements (writer.wrote _) inside]
    cases elements with
    | nil => simp [childNodes, Writer.indent, inside]
    | cons next elements => simp [Writer.wrote, Writer.closed, childNodes, Writer.indent, inside]
end

theorem nextEnd (current : Option Node) (rest : List Node) :
    Next indented ⟨current, .endElement :: rest⟩ ⟨some .endElement, rest⟩ :=
  .here rfl (.inr rfl)

theorem nextElement (current : Option Node) (name : Text) (attributes : Attributes) (isEmpty : Bool)
    (rest : List Node) : Next indented ⟨current, .element name attributes isEmpty :: rest⟩
      ⟨some (.element name attributes isEmpty), rest⟩ :=
  .here rfl (.inl rfl)

theorem nextText {current : Option Node} {text : Text} {rest : List Node} {node : NodeReader}
    (next : Next indented ⟨some (.text text), rest⟩ node) : Next indented ⟨current, .text text :: rest⟩ node :=
  .later rfl (show 3 ≠ START by decide) (show 3 ≠ END by decide) next

theorem nextStop {current : Option Node} (text : Text) (rest : List Node) :
    Next indented ⟨current, texts text ++ .endElement :: rest⟩ ⟨some .endElement, rest⟩ := by
  rw [texts]
  split_ifs
  · exact nextEnd current rest
  · exact nextText (nextEnd ..)

theorem contentString (name : Text) (attributes : Attributes) (text : Text) (rest : List Node) :
    indented.ReadString ⟨some (.element name attributes false), texts text ++ .endElement :: rest⟩ =
      if text = [] then none else some text := by
  have same : content 0 (texts text ++ .endElement :: rest) = text := by
    rw [texts]
    split_ifs with empty
    · exact empty.symm
    · exact List.append_nil text
  show (if content 0 (texts text ++ .endElement :: rest) = [] then none
    else some (content 0 (texts text ++ .endElement :: rest))) = _
  rw [same]

theorem elementStarts (name : Text) (attributes : Attributes) (isEmpty : Bool) (rest : List Node) :
    Starts indented ⟨some (.element name attributes isEmpty), rest⟩ name attributes isEmpty :=
  ⟨rfl, rfl, rfl, fun _ => rfl⟩

/- The nodes of an element are shown, and then those that follow. -/
def Shown (element : Element) (nodes : List Node) : Prop :=
  ∀ current rest, ∃ stop, ∀ elements last, Shows indented ⟨stop, rest⟩ elements last →
    Shows indented ⟨current, nodes ++ rest⟩ (element :: elements) last

theorem shownIndented {element : Element} {nodes : List Node} {depth : ℕ} (shown : Shown element nodes) :
    Shown element (indentation depth :: nodes) := by
  intro current rest
  obtain ⟨stop, shows⟩ := shown (some (indentation depth)) rest
  exact ⟨stop, fun elements last others => showsBefore (fun _ => nextText) (shows elements last others)⟩

mutual
theorem elementShown (element : Element) (depth : ℕ) : Shown element (element.nodes depth) := by
  intro current rest
  cases element with
  | string name attributes content =>
    refine ⟨some .endElement, fun elements last others => ?_⟩
    rw [Element.nodes, List.cons_append, List.append_assoc, List.singleton_append]
    refine .string (nextElement ..) (elementStarts ..) ?_ ?_ rfl others
    · exact contentString name attributes content rest
    · exact nextStop content rest
  | parent name attributes children =>
    rw [Element.nodes, List.cons_append]
    cases children with
    | nil =>
      refine ⟨some (.element name attributes true), fun elements last others => ?_⟩
      exact .single (nextElement ..) (elementStarts ..) others
    | cons first children =>
      obtain ⟨inner, inside⟩ := childrenShown (first :: children) (depth + 1) (some (.element name attributes false))
        (indentation depth :: .endElement :: rest)
      refine ⟨some .endElement, fun elements last others => ?_⟩
      rw [List.append_assoc]
      exact .parent (List.cons_ne_nil _ _) (nextElement ..) (elementStarts ..) inside (nextText (nextEnd ..)) rfl others
theorem childrenShown (children : List Element) (depth : ℕ) (current : Option Node) (rest : List Node) :
    ∃ stop, Shows indented ⟨current, childNodes depth children ++ rest⟩ children ⟨stop, rest⟩ := by
  cases children with
  | nil => exact ⟨current, .nil⟩
  | cons element children =>
    obtain ⟨stop, shows⟩ := shownIndented (elementShown element depth) current (childNodes depth children ++ rest)
    obtain ⟨last, others⟩ := childrenShown children depth stop rest
    refine ⟨last, ?_⟩
    have all := shows children _ others
    rw [← List.append_assoc] at all
    exact all
end

theorem indentedFaithful : Faithful indented fun _ => True where
  shows := fun element _ => by
    obtain ⟨stop, shows⟩ := elementShown element 0 none []
    have file : written element.calls = ⟨none, element.nodes 0 ++ []⟩ := by
      rw [written, elementWritten, List.append_nil]
      rfl
    have all := shows [] _ .nil
    rw [← file] at all
    cases element with
    | string name attributes content =>
      refine ⟨_, _, congrArg NodeReader.Read file, rfl, all⟩
    | parent name attributes children =>
      refine ⟨_, _, congrArg NodeReader.Read file, rfl, all⟩
  nothing := fun node => by
    show node.ReadString ≠ _
    unfold NodeReader.ReadString
    split
    · split_ifs with empty
      · exact (Option.some_ne_none _).symm
      · exact fun same => empty (Option.some.inj same)
    · exact (Option.some_ne_none _).symm

end Indented
end XmlStream
