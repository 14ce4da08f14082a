import PgAdmin.WxString
import PgAdmin.Tokenizer
import PgAdmin.CheckTreeView

/-! The list that pg_restore prints of a backup, read into the tree of its objects. -/
namespace PgAdmin.frmRestore
open PgsObjects (Text)
open wxString ctlCheckTreeView

def GetNextToken (col : List Text) : Text × List Text := (col.headD [], col.tail)

structure TocEntry where
  type : Text
  schema : Text
  name : Text
  owner : Text

def behind (str sub : Text) : ℕ := (Find str sub).toNat + sub.length + 1

def firstType (str : Text) : Text := ((Tokenizer.strtok ' ' str).drop 3).headD []

/- The type may take more columns. None stands for a DEFAULT that is not expected. -/
def readType (str type : Text) (col : List Text) : Option (Text × List Text) :=
  let next := type ++ " ".toList ++ (GetNextToken col).1
  let after := (GetNextToken col).2
  if type = "PROCEDURAL".toList then some (GetNextToken col)
  else if type = "SHELL".toList then some (type ++ (GetNextToken col).1, after)
  else if type = "OPERATOR".toList then
    if Mid str (behind str type) 5 = "CLASS".toList then some (next, after) else some (type, col)
  else if type = "SEQUENCE".toList then
    if Mid str (behind str type) 3 = "OWN".toList ∨ Mid str (behind str type) 3 = "SET".toList then
      if next = "SEQUENCE OWNED".toList then
        some (next ++ " ".toList ++ (GetNextToken after).1, (GetNextToken after).2)
      else some (next, after)
    else some (type, col)
  else if type = "FK".toList then some (GetNextToken col)
  else if type = "TABLE".toList then if col.length = 4 then some (next, after) else some (type, col)
  else if type = "DEFAULT".toList then
    if col.length ≠ 3 then if next ≠ "DEFAULT ACL".toList then none else some (next, after)
    else some (type, col)
  else some (type, col)

def readEntry (str : Text) : Option TocEntry :=
  (readType str (firstType str) ((Tokenizer.strtok ' ' str).drop 4)).map fun (type, col) =>
    let schema := (GetNextToken col).1
    let name := BeforeLast (str.drop (behind str schema)) ' '
    { type, schema, name, owner := str.drop (behind str name) }

structure TocItem where
  parent : Option ℕ
  text : Text
  data : Option (ℕ × Text)

/- The variables of OnEndProcess. Nodes that are not valid are none; schemaNodeData is the cookie of the last
search for a schema, the number of children read so far. -/
structure Loading where
  items : List TocItem
  currentSchema : Text
  currentSchemaNode : Option ℕ
  schemaNode : Option ℕ
  lastItem : Option ℕ
  schemaNodeData : ℕ
  numberOfTOCItems : ℕ

def Loading.parents (s : Loading) : List (Option ℕ) := s.items.map TocItem.parent

def Loading.GetItemText (s : Loading) (i : ℕ) : Text := (s.items[i]?.map TocItem.text).getD []

def Loading.AppendItem (s : Loading) (parent : Option (Option ℕ)) (text : Text) : Loading :=
  match parent with
  | none => { s with lastItem := none }
  | some parent => { s with items := s.items ++ [⟨parent, text, none⟩], lastItem := some s.items.length }

def Loading.SetItemData (s : Loading) (data : ℕ × Text) : Loading :=
  match s.lastItem with
  | none => s
  | some i => { s with items := s.items.modify i fun item => { item with data := some data } }

/- From GetFirstChild on: the child found and the cookie. -/
def Loading.findChild (s : Loading) (node : Option ℕ) (text : Text) : Option ℕ × ℕ :=
  let nodes := children s.parents node
  match nodes.findIdx? (s.GetItemText · = text) with
  | some k => (nodes[k]?, k + 1)
  | none => (none, nodes.length)

def Loading.findExtension (s : Loading) (start : Option (Option ℕ)) (text : Text) (cookie : ℕ) : Option ℕ × ℕ :=
  match start with
  | none => (none, cookie)
  | some node =>
    match children s.parents node with
    | [] => (none, cookie)
    | first :: others =>
      if s.GetItemText first = text then (some first, cookie)
      else
        let nodes := (first :: others).drop cookie
        match nodes.findIdx? (s.GetItemText · = text) with
        | some k => (nodes[k]?, cookie + k + 1)
        | none => (none, max cookie (others.length + 1))

def schemaText (schema : Text) : Text := "Schema ".toList ++ schema

def extensionText (extension : Text) : Text := "Extension ".toList ++ extension

def TocEntry.extension (e : TocEntry) : Text := e.name.drop 10

def Loading.searchStart (s : Loading) (e : TocEntry) : Option (Option ℕ) × ℕ :=
  if e.schema ≠ "-".toList then
    if e.schema ≠ s.currentSchema then
      match s.findChild none (schemaText e.schema) with
      | (some _, cookie) => (some none, cookie)
      | (none, cookie) => (s.schemaNode.map some, cookie)
    else (s.currentSchemaNode.map some, s.schemaNodeData)
  else (some none, s.schemaNodeData)

def Loading.extensionNode (s : Loading) (e : TocEntry) : Option ℕ × ℕ :=
  if (s.lastItem.map s.GetItemText).getD [] = extensionText e.extension then (s.lastItem, s.schemaNodeData)
  else s.findExtension (s.searchStart e).1 (extensionText e.extension) (s.searchStart e).2

def Loading.enterSchema (s : Loading) (e : TocEntry) : Loading :=
  if e.schema ≠ s.currentSchema then
    match s.findChild none (schemaText e.schema) with
    | (some node, cookie) => { s with
        schemaNode := some node, schemaNodeData := cookie, currentSchema := e.schema, currentSchemaNode := some node }
    | (none, cookie) => { s with schemaNode := none, schemaNodeData := cookie }
  else s

inductive Kind where
  | language | acl | cast | schema | extension | comment | member
  deriving DecidableEq

def TocEntry.kind (e : TocEntry) : Kind :=
  if e.type = "LANGUAGE".toList then .language
  else if e.type = "ACL".toList ∧ e.schema = "-".toList then .acl
  else if e.type = "CAST".toList then .cast
  else if e.type = "SCHEMA".toList then .schema
  else if e.type = "EXTENSION".toList ∧ (e.schema = "-".toList ∨ e.schema = []) then .extension
  else if e.type = "COMMENT".toList ∧ "EXTENSION ".toList <+: e.name then .comment
  else .member

def TocEntry.text (word : Text) (e : TocEntry) : Text :=
  let owned := "[".toList ++ word ++ ": ".toList ++ e.owner ++ "]".toList
  match e.kind with
  | .language => "Language ".toList ++ e.name ++ " ".toList ++ owned
  | .acl => e.type ++ " ".toList ++ e.name
  | .cast => e.name
  | .schema => schemaText e.name
  | .extension => extensionText e.name ++ if e.owner = [] then [] else owned
  | .comment =>
    if e.owner = [] then e.type ++ " Extension  ".toList ++ e.extension
    else e.type ++ " Extension ".toList ++ e.extension ++ " ".toList ++ owned
  | .member => e.type ++ " ".toList ++ e.name ++ if e.owner = [] then [] else " ".toList ++ owned

def Loading.enter (word : Text) (s : Loading) (e : TocEntry) : Loading :=
  match e.kind with
  | .language | .acl | .cast | .extension => s.AppendItem (some none) (e.text word)
  | .schema =>
    let s := s.AppendItem (some none) (e.text word)
    { s with currentSchema := e.name, currentSchemaNode := s.lastItem }
  | .comment =>
    let (node, cookie) := s.extensionNode e
    let s := { s with schemaNodeData := cookie }
    match node with
    | none => s
    | some node => s.AppendItem (some (some node)) (e.text word)
  | .member => (s.enterSchema e).AppendItem ((s.enterSchema e).currentSchemaNode.map some) (e.text word)

def Loading.read (word : Text) (s : Loading) (str : Text) : Loading :=
  if str.take 1 = ";".toList ∨ str.take 1 = "P".toList then s
  else if firstType str = "DATABASE".toList then s
  else match readEntry str with
    | none => s
    | some e =>
      let s := (s.enter word e).SetItemData (s.numberOfTOCItems, str)
      { s with numberOfTOCItems := s.numberOfTOCItems + 1 }

def tocLines (messages : Text) : List Text := ((Tokenizer.strtok '\n' messages).drop 1).dropLast

def load (word : Text) (cookie : ℕ) (lines : List Text) : Loading :=
  lines.foldl (Loading.read word) ⟨[], [], none, none, none, cookie, 0⟩

section Use
variable (items : List TocItem) (images : Images)

/- restoreStrings[data->GetId()] = data->GetDesc() -/
def writeItem (i : ℕ) (restoreStrings : List Text) : Option (List Text) := do
  let item ← items[i]?
  let (id, desc) ← item.data
  some (restoreStrings.set id desc)

/- The flag is partialDump. -/
def secondLevel : List ℕ → List Text × Bool → Option (List Text × Bool)
  | [], out => some out
  | i :: rest, (restoreStrings, partialDump) =>
    if images (some i) = 1 then do
      let restoreStrings ← writeItem items i restoreStrings
      secondLevel rest (restoreStrings, partialDump)
    else secondLevel rest (restoreStrings, true)

def firstLevel : List ℕ → List Text × Bool → Option (List Text × Bool)
  | [], out => some out
  | i :: rest, (restoreStrings, partialDump) =>
    if images (some i) = 1 then do
      let restoreStrings ← writeItem items i restoreStrings
      let out ← secondLevel items images (children (items.map TocItem.parent) (some i))
        (restoreStrings, partialDump)
      firstLevel rest out
    else firstLevel rest (restoreStrings, true)

end Use

def useList (s : Loading) (images : Images) : Option (List Text) := do
  let (restoreStrings, partialDump) ←
    firstLevel s.items images (children s.parents none) (List.replicate s.numberOfTOCItems [], false)
  let tocFile := restoreStrings.filter (!·.isEmpty)
  if partialDump ∧ tocFile ≠ [] then some tocFile else none

end PgAdmin.frmRestore
