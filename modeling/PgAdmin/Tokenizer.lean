import Mathlib

/-! Cutting a text at a delimiter, in the two ways a string tokenizer does: with the empty tokens
returned but for those at the end, and with all of them left out. -/
namespace PgAdmin.Tokenizer

section Tokens
variable {α : Type} [DecidableEq α] {d : α} {s : List α}

def retEmpty (d : α) (s : List α) : List (List α) :=
  let kept := (s.splitOn d).rdropWhile List.isEmpty
  if kept = [] ∧ s ≠ [] then [[]] else kept

def strtok (d : α) (s : List α) : List (List α) := (s.splitOn d).filter (!·.isEmpty)

def unfinished (d : α) (s : List α) : List α := (s.splitOn d).getLastD []

def finished (d : α) (s : List α) : List (List α) := (s.splitOn d).dropLast.filter (!·.isEmpty)

def lines (d : α) (s : List α) : List (List α) :=
  let pieces := s.splitOn d
  if pieces.getLast? = some [] then pieces.dropLast else pieces

theorem pieceLetters {piece : List α} (member : piece ∈ s.splitOn d) :
    d ∉ piece ∧ ∀ c ∈ piece, c ∈ s := by
  induction s generalizing piece with
  | nil =>
    rw [List.splitOn_nil, List.mem_singleton] at member
    simp [member]
  | cons c s ih =>
    rw [List.splitOn_cons_eq_if_modifyHead] at member
    split at member
    · rcases List.mem_cons.mp member with rfl | inside
      · simp
      · obtain ⟨free, letters⟩ := ih inside
        exact ⟨free, fun l here => List.mem_cons_of_mem c (letters l here)⟩
    · rename_i other
      obtain ⟨first, rest, whole⟩ := List.exists_cons_of_ne_nil (List.splitOn_ne_nil d s)
      rw [whole, List.modifyHead_cons] at member
      rw [whole] at ih
      rcases List.mem_cons.mp member with rfl | inside
      · obtain ⟨free, letters⟩ := ih List.mem_cons_self
        refine ⟨?_, fun l here => ?_⟩
        · exact fun here => (List.mem_cons.mp here).elim (fun same => other (by simp [same])) free
        · exact (List.mem_cons.mp here).elim (fun same => same ▸ List.mem_cons_self)
            fun here => List.mem_cons_of_mem c (letters l here)
      · obtain ⟨free, letters⟩ := ih (List.mem_cons_of_mem first inside)
        exact ⟨free, fun l here => List.mem_cons_of_mem c (letters l here)⟩

theorem lineLetters {line : List α} (member : line ∈ lines d s) : d ∉ line ∧ ∀ c ∈ line, c ∈ s := by
  unfold lines at member
  simp only at member
  split at member
  · exact pieceLetters (List.mem_of_mem_dropLast member)
  · exact pieceLetters member

theorem retEmptyRest (d : α) (s : List α) :
    ∃ rest, (∀ token ∈ rest, token = []) ∧ s.splitOn d = retEmpty d s ++ rest := by
  have whole := List.rdropWhile_append_rtakeWhile (p := List.isEmpty) (l := s.splitOn d)
  have blank : ∀ token ∈ (s.splitOn d).rtakeWhile List.isEmpty, token = [] := fun token member =>
    List.isEmpty_iff.mp (List.mem_rtakeWhile_imp member)
  unfold retEmpty
  simp only
  split
  · rename_i none
    rw [none.1, List.nil_append] at whole
    rw [whole] at blank
    obtain ⟨first, rest, split⟩ := List.exists_cons_of_ne_nil (List.splitOn_ne_nil d s)
    rw [split] at blank ⊢
    exact ⟨rest, fun token member => blank token (List.mem_cons_of_mem _ member),
      by rw [blank first List.mem_cons_self]; rfl⟩
  · exact ⟨_, blank, whole.symm⟩

theorem unfinishedLast (d : α) (s : List α) :
    s.splitOn d = (s.splitOn d).dropLast ++ [unfinished d s] := by
  obtain none | ⟨front, last, whole⟩ := List.eq_nil_or_concat' (s.splitOn d)
  · exact absurd none (List.splitOn_ne_nil d s)
  · rw [unfinished, whole]
    simp

theorem unfinishedFree (d : α) (s : List α) : d ∉ unfinished d s :=
  (pieceLetters (unfinishedLast d s ▸ List.mem_append_right _ (List.mem_singleton_self _))).1

theorem unfinishedSelf (free : d ∉ s) : unfinished d s = s := by
  simp [unfinished, List.splitOn_eq_singleton free]

theorem finishedSelf (free : d ∉ s) : finished d s = [] := by
  simp [finished, List.splitOn_eq_singleton free]

theorem unfinishedAfter {rest : List α} (free : d ∉ rest) :
    unfinished d (s ++ d :: rest) = rest := by
  simp [unfinished, List.splitOn_append_cons_self, List.splitOn_eq_singleton free]

theorem lastDelimiter (d : α) (s : List α) :
    d ∉ s ∨ ∃ front, s = front ++ d :: unfinished d s ∧
      (s.splitOn d).dropLast = front.splitOn d := by
  by_cases inside : d ∈ s
  · right
    obtain ⟨back, front, whole, free⟩ := List.eq_append_cons_of_mem (List.mem_reverse.mpr inside)
    have cut : s = front.reverse ++ d :: back.reverse := by
      rw [← List.reverse_reverse s, whole]
      simp
    have pieces : s.splitOn d = front.reverse.splitOn d ++ [back.reverse] := by
      rw [cut, List.splitOn_append_cons_self,
        List.splitOn_eq_singleton (fun here => free (List.mem_reverse.mp here))]
    have last : unfinished d s = back.reverse := by simp [unfinished, pieces]
    exact ⟨front.reverse, by rw [last]; exact cut, by rw [pieces, List.dropLast_concat]⟩
  · exact .inl inside

theorem splitOnAppend (d : α) (s t : List α) :
    (s ++ t).splitOn d = (s.splitOn d).dropLast ++ (unfinished d s ++ t).splitOn d := by
  obtain free | ⟨front, whole, pieces⟩ := lastDelimiter d s
  · simp [unfinished, List.splitOn_eq_singleton free]
  · rw [pieces, ← List.splitOn_append_cons_self, ← List.cons_append, ← List.append_assoc, ← whole]

theorem unfinishedAppend (d : α) (s t : List α) :
    unfinished d (s ++ t) = unfinished d (unfinished d s ++ t) := by
  rw [unfinished, splitOnAppend, unfinishedLast d (unfinished d s ++ t), ← List.append_assoc]
  simp

theorem finishedAppend (d : α) (s t : List α) :
    finished d (s ++ t) = finished d s ++ finished d (unfinished d s ++ t) := by
  have nonempty := List.splitOn_ne_nil d (unfinished d s ++ t)
  rw [finished, splitOnAppend, List.dropLast_append_of_ne_nil nonempty, List.filter_append]
  rfl

theorem strtokFinished (d : α) (s : List α) : strtok d s =
    finished d s ++ if unfinished d s = [] then [] else [unfinished d s] := by
  rw [strtok, unfinishedLast, List.filter_append, finished]
  by_cases none : unfinished d s = []
  · simp [none]
  · simp [none]

theorem unfinishedNone {d : α} {s : List α} : unfinished d s = [] ↔ s = [] ∨ s.getLast? = some d := by
  obtain free | ⟨front, whole, -⟩ := lastDelimiter d s
  · rw [unfinishedSelf free]
    refine (or_iff_left fun last => free ?_).symm
    exact List.mem_of_getLast? last
  · have free := unfinishedFree d s
    generalize unfinished d s = rest at whole free ⊢
    subst whole
    obtain rfl | ⟨before, last, rfl⟩ := List.eq_nil_or_concat' rest
    · simp
    · have other : last ≠ d := by
        rintro rfl
        exact free (List.mem_append_right _ (List.mem_singleton_self last))
      have ends : (front ++ d :: (before ++ [last])).getLast? = some last := by
        rw [← List.cons_append, ← List.append_assoc, List.getLast?_concat]
      simp [ends, other]

end Tokens
end PgAdmin.Tokenizer
