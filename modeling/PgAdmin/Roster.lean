import Mathlib

/-! Rows that keep an identity while their positions change: those fetched from a source, known by
their index there, and after them those that were added, known by a serial number. Rows are added
at the end and removed anywhere; no identity appears twice, and none comes back. -/
namespace PgAdmin

inductive RowId where
  | fetched (index : ℕ)
  | added (serial : ℕ)
  deriving DecidableEq, Repr

structure Roster where
  fetched : List ℕ
  deleted : List ℕ
  added : List ℕ
  issued : ℕ

namespace Roster

variable {r : Roster} {nRows pos row : ℕ}

def opened (nRows added : ℕ) : Roster where
  fetched := List.range nRows
  deleted := []
  added := List.range added
  issued := added

def ids (r : Roster) : List RowId := r.fetched.map .fetched ++ r.added.map .added

def append (r : Roster) (rows : ℕ) : Roster where
  fetched := r.fetched
  deleted := r.deleted
  added := r.added ++ List.range' r.issued rows
  issued := r.issued + rows

def remove (r : Roster) (pos : ℕ) : Roster :=
  if inside : pos < r.fetched.length then
    { r with fetched := r.fetched.eraseIdx pos, deleted := r.fetched[pos] :: r.deleted }
  else { r with added := r.added.eraseIdx (pos - r.fetched.length) }

def removeMany (r : Roster) (pos : ℕ) : ℕ → Roster
  | 0 => r
  | rows + 1 => (r.remove pos).removeMany pos rows

structure Sound (nRows : ℕ) (r : Roster) : Prop where
  order : r.fetched.Pairwise (· < ·)
  exact : (r.fetched ++ r.deleted).Perm (List.range nRows)
  serials : r.added.Pairwise (· < ·)
  known : ∀ serial ∈ r.added, serial < r.issued

theorem openedSound (nRows added : ℕ) : (opened nRows added).Sound nRows where
  order := List.pairwise_lt_range
  exact := by simp [opened]
  serials := List.pairwise_lt_range
  known _ member := List.mem_range.mp member

theorem appendSound (sound : r.Sound nRows) (rows : ℕ) : (r.append rows).Sound nRows where
  order := sound.order
  exact := sound.exact
  serials := by
    refine List.pairwise_append.mpr ⟨sound.serials, List.pairwise_lt_range', ?_⟩
    intro old member new fresh
    have first := (List.mem_range'_1.mp fresh).1
    have before := sound.known old member
    omega
  known serial member := by
    rcases List.mem_append.mp member with old | fresh
    · exact Nat.lt_add_right rows (sound.known serial old)
    · exact (List.mem_range'_1.mp fresh).2

theorem removeSound (sound : r.Sound nRows) (pos : ℕ) : (r.remove pos).Sound nRows := by
  unfold remove
  split
  · rename_i inside
    refine ⟨sound.order.eraseIdx pos, ?_, sound.serials, sound.known⟩
    have moved : (r.fetched.eraseIdx pos ++ r.fetched[pos] :: r.deleted).Perm
        (r.fetched ++ r.deleted) :=
      List.perm_middle.trans (((List.getElem_cons_eraseIdx_perm inside).append_right _))
    exact moved.trans sound.exact
  · exact ⟨sound.order, sound.exact, sound.serials.eraseIdx _, fun serial member =>
      sound.known serial (List.mem_of_mem_eraseIdx member)⟩

theorem idsNodup (sound : r.Sound nRows) : r.ids.Nodup := by
  refine List.nodup_append.mpr ⟨?_, ?_, ?_⟩
  · exact (sound.order.imp (ne_of_lt ·)).map _ fun _ _ differs same =>
      differs (RowId.fetched.inj same)
  · exact (sound.serials.imp (ne_of_lt ·)).map _ fun _ _ differs same =>
      differs (RowId.added.inj same)
  · intro first fetched second added
    obtain ⟨_, _, rfl⟩ := List.mem_map.mp fetched
    obtain ⟨_, _, rfl⟩ := List.mem_map.mp added
    exact fun same => nomatch same

theorem idsLength (r : Roster) : r.ids.length = r.fetched.length + r.added.length := by
  simp [ids]

theorem appendIds (r : Roster) (rows : ℕ) :
    (r.append rows).ids = r.ids ++ (List.range' r.issued rows).map .added := by
  simp [append, ids]

theorem removeIds (r : Roster) (pos : ℕ) : (r.remove pos).ids = r.ids.eraseIdx pos := by
  unfold remove ids
  split
  · rename_i inside
    rw [List.eraseIdx_append_of_lt_length (by simpa using inside)]
    simp [List.eraseIdx_map]
  · rename_i outside
    rw [List.eraseIdx_append_of_length_le (by simpa using outside)]
    simp [List.eraseIdx_map]

theorem removeManyFetched (r : Roster) (pos rows : ℕ) :
    (r.removeMany pos rows).fetched.length ≤ r.fetched.length := by
  induction rows generalizing r with
  | zero => exact le_rfl
  | succ rows ih =>
    refine (ih (r.remove pos)).trans ?_
    unfold remove
    split
    · exact List.length_eraseIdx_le ..
    · exact le_rfl

theorem removeManyIds (r : Roster) (pos rows i : ℕ) :
    (r.removeMany pos rows).ids[i]? = r.ids[if i < pos then i else i + rows]? := by
  induction rows generalizing r with
  | zero => simp [removeMany]
  | succ rows ih =>
    rw [removeMany, ih, removeIds, List.getElem?_eraseIdx]
    by_cases before : i < pos
    · simp only [if_pos before]
    · rw [if_neg before, if_neg before, if_neg (by omega)]
      congr 1

end Roster
end PgAdmin
