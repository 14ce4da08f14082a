import Mathlib.Data.List.Basic

/-! Small XML documents over code points: elements without attributes and character data. The text of a tree, the
code points that may stand in a document, and what a reader makes of ends of lines. -/
namespace PgAdmin

def codePoints (s : String) : List ℕ := s.toList.map Char.toNat

inductive XmlNode where
  | text (content : List ℕ)
  | element (name : List ℕ) (children : List XmlNode)

namespace XmlNode

/- The code points of XML 1.0. -/
def Allowed (c : ℕ) : Prop :=
  c = 0x9 ∨ c = 0xA ∨ c = 0xD ∨ (0x20 ≤ c ∧ c ≤ 0xD7FF) ∨ (0xE000 ≤ c ∧ c ≤ 0xFFFD) ∨
    (0x10000 ≤ c ∧ c ≤ 0x10FFFF)

instance (c : ℕ) : Decidable (Allowed c) := by unfold Allowed; infer_instance

def escape (c : ℕ) : List ℕ :=
  if c = '<'.toNat then codePoints "&lt;"
  else if c = '&'.toNat then codePoints "&amp;"
  else if c = '>'.toNat then codePoints "&gt;"
  else if c = '"'.toNat then codePoints "&quot;"
  else if c = '\''.toNat then codePoints "&apos;"
  else [c]

/- A carriage return and the line feed after it are one line feed, and so is a carriage return alone. -/
def endsOfLines : List ℕ → List ℕ
  | [] => []
  | c :: rest =>
    if c = 0xD then if rest.head? = some 0xA then endsOfLines rest else 0xA :: endsOfLines rest
    else c :: endsOfLines rest

def openTag (name : List ℕ) : List ℕ := codePoints "<" ++ name ++ codePoints ">"
def closeTag (name : List ℕ) : List ℕ := codePoints "</" ++ name ++ codePoints ">"

mutual
def render : XmlNode → List ℕ
  | text content => content.flatMap escape
  | element name children => openTag name ++ renderAll children ++ closeTag name
def renderAll : List XmlNode → List ℕ
  | [] => []
  | node :: nodes => node.render ++ renderAll nodes
end

mutual
def Readable : XmlNode → Prop
  | text content => ∀ c ∈ content, Allowed c
  | element _ children => ReadableAll children
def ReadableAll : List XmlNode → Prop
  | [] => True
  | node :: nodes => node.Readable ∧ ReadableAll nodes
end

mutual
def asRead : XmlNode → XmlNode
  | text content => text (endsOfLines content)
  | element name children => element name (asReadAll children)
def asReadAll : List XmlNode → List XmlNode
  | [] => []
  | node :: nodes => node.asRead :: asReadAll nodes
end

/- What documents a reader takes: those whose code points are allowed, and it gives back their tree. -/
structure Reads (load : List ℕ → Option XmlNode) (root : XmlNode) (text : List ℕ) : Prop where
  accepted : root.Readable → load text = some root.asRead
  refused : ¬ root.Readable → load text = none

theorem endsOfLinesSame {content : List ℕ} (none : 0xD ∉ content) : endsOfLines content = content := by
  induction content with
  | nil => rfl
  | cons c rest ih =>
    rw [List.mem_cons, not_or] at none
    rw [endsOfLines, if_neg fun same => none.1 same.symm, ih none.2]

theorem noReturnAsRead (content : List ℕ) : 0xD ∉ endsOfLines content := by
  induction content with
  | nil => exact List.not_mem_nil
  | cons c rest ih =>
    rw [endsOfLines]
    split_ifs with here followed
    · exact ih
    · simpa using ih
    · simp only [List.mem_cons, not_or]
      exact ⟨fun same => here same.symm, ih⟩

end XmlNode

end PgAdmin
