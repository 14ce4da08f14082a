import PgAdmin.PgsObjects
import PgAdmin.Tokenizer

/-! The line ends of a text file: a newline, a carriage return, or both. A translation writes them
all in one way, and leaves the lines as they are. -/
namespace PgAdmin.LineEnds
open PgsObjects (Text)
open Tokenizer

variable {s w : Text} {ws : List Text}

inductive wxTextFileType where
  | unix
  | dos
  | mac
  deriving DecidableEq, Repr

def GetEOL : wxTextFileType → Text
  | .unix => ['\n']
  | .dos => ['\r', '\n']
  | .mac => ['\r']

/- wxTextBuffer::Translate -/
def Translate (type : wxTextFileType) : Text → Text
  | [] => []
  | '\r' :: '\n' :: s => GetEOL type ++ Translate type s
  | '\r' :: s => GetEOL type ++ Translate type s
  | '\n' :: s => GetEOL type ++ Translate type s
  | c :: s => c :: Translate type s

def fileLines (s : Text) : List Text := lines '\n' (Translate .unix s)

def Unbroken (w : Text) : Prop := '\n' ∉ w ∧ '\r' ∉ w

theorem translatePlain (type : wxTextFileType) {c : Char} (newline : c ≠ '\n') (ret : c ≠ '\r')
    (s : Text) : Translate type (c :: s) = c :: Translate type s := by
  rw [Translate]
  · exact fun _ same => absurd same ret
  · exact ret
  · exact newline

theorem translateUnix (unix : '\r' ∉ s) : Translate .unix s = s := by
  fun_induction Translate .unix s with
  | case1 => rfl
  | case2 s ih => simp at unix
  | case3 s _ ih => simp at unix
  | case4 s ih => simpa [GetEOL] using ih fun member => unix (List.mem_cons_of_mem _ member)
  | case5 c s _ _ _ ih => rw [ih fun member => unix (List.mem_cons_of_mem _ member)]

theorem translatedNoReturn (s : Text) : '\r' ∉ Translate .unix s := by
  fun_induction Translate .unix s with
  | case1 => simp
  | case2 s ih => simpa [GetEOL] using ih
  | case3 s _ ih => simpa [GetEOL] using ih
  | case4 s ih => simpa [GetEOL] using ih
  | case5 c s _ ret _ ih => simpa [GetEOL, ih] using fun same => ret same.symm

theorem translateReturn {type : wxTextFileType} (head : s.head? ≠ some '\n') :
    Translate type ('\r' :: s) = GetEOL type ++ Translate type s := by
  rw [Translate]
  rintro rest rfl
  exact head rfl

theorem translatedMac (s : Text) : '\n' ∉ Translate .mac s := by
  fun_induction Translate .mac s with
  | case1 => simp
  | case2 s ih => simpa [GetEOL] using ih
  | case3 s _ ih => simpa [GetEOL] using ih
  | case4 s ih => simpa [GetEOL] using ih
  | case5 c s _ _ newline ih => simpa [GetEOL, ih] using fun same => newline same.symm

theorem translateEol (type : wxTextFileType) (s : Text) :
    Translate .unix (GetEOL type ++ Translate type s) =
      '\n' :: Translate .unix (Translate type s) := by
  cases type with
  | unix => simp [GetEOL, Translate]
  | dos => simp [GetEOL, Translate]
  | mac =>
    refine translateReturn fun head => translatedMac s ?_
    exact List.mem_of_mem_head? head

theorem translateTwice (type : wxTextFileType) (s : Text) :
    Translate .unix (Translate type s) = Translate .unix s := by
  fun_induction Translate .unix s with
  | case1 => rfl
  | case2 s ih =>
    rw [Translate, translateEol, ih]
    rfl
  | case3 s single ih =>
    have head : s.head? ≠ some '\n' := by
      cases s with
      | nil => simp
      | cons c s =>
        rintro same
        exact single s (congrArg (· :: s) (Option.some.inj same))
    rw [translateReturn head, translateEol, ih]
    rfl
  | case4 s ih =>
    rw [Translate, translateEol, ih]
    rfl
  | case5 c s _ ret newline ih => rw [translatePlain type newline ret, translatePlain _ newline ret, ih]

theorem linesOf (unbroken : ∀ w ∈ ws, '\n' ∉ w) :
    lines '\n' (ws.flatMap (· ++ ['\n'])) = ws := by
  have pieces : (ws.flatMap (· ++ ['\n'])).splitOn '\n' = ws ++ [[]] := by
    induction ws with
    | nil => rfl
    | cons w ws ih =>
      have rest := ih fun w member => unbroken w (List.mem_cons_of_mem _ member)
      rw [List.flatMap_cons, List.append_assoc, List.singleton_append,
        List.splitOn_append_cons_self, rest, List.splitOn_eq_singleton
        (unbroken w List.mem_cons_self)]
      rfl
  rw [lines]
  simp [pieces]

theorem fileLinesUnbroken (member : w ∈ fileLines s) : Unbroken w := by
  obtain ⟨free, letters⟩ := lineLetters member
  exact ⟨free, fun inside => translatedNoReturn s (letters _ inside)⟩

end PgAdmin.LineEnds
