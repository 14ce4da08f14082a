import Mathlib.Data.Set.Basic
import Mathlib.Logic.Function.Basic

/-! A sheet of cells over a store, with one row being edited. The edited row has a copy of what
the store last held for it; every other row shows what the store holds. The history of the edits
is kept beside the sheet, and one rule for each kind of step says when none is lost. -/
namespace PgAdmin.PendingEdit

variable {Row Col Val Den : Type}

structure Sheet (Row Col Val : Type) where
  shown : Row → Col → Val
  last : Option Row
  saved : Col → Val

inductive Status (Val : Type) where
  | pending (value : Val)
  | accepted (value : Val)
  | discarded (value : Val)
  deriving DecidableEq, Repr

structure Edits (Row Col Val Den : Type) where
  contents : Row → Col → Den
  status : Row → Col → Option (Status Val)

/- norm is the form in which a cell shows a text, means what the store makes of a text that is put
into it, and read is how the sheet gets a value from the store. -/
structure View (Col Val Den : Type) where
  norm : Col → Val → Val
  means : Col → Val → Den
  read : Col → Den → Val

/- The text is what the sheet gets for the value, or one that the store makes the value of. -/
def View.Shows (view : View Col Val Den) (col : Col) (text : Val) (value : Den) : Prop :=
  view.norm col text = view.norm col (view.read col value) ∨ view.means col (view.norm col text) = value

/- No edit is lost: one that is neither accepted nor discarded is on the row being edited, whose
copy shows what the store holds, and the other rows show what the store holds. -/
structure Kept (view : View Col Val Den) (sheet : Sheet Row Col Val) (e : Edits Row Col Val Den) :
    Prop where
  pending : ∀ row col value, e.status row col = some (.pending value) →
    sheet.last = some row ∧ view.norm col (sheet.shown row col) = view.norm col value
  saved : ∀ row, sheet.last = some row → ∀ col, view.Shows col (sheet.saved col) (e.contents row col)
  shown : ∀ row, sheet.last ≠ some row → ∀ col, view.Shows col (sheet.shown row col) (e.contents row col)

theorem View.Shows.alike {view : View Col Val Den} {col : Col} {text other : Val} {value : Den}
    (shows : view.Shows col text value) (same : view.norm col other = view.norm col text) :
    view.Shows col other value := by
  unfold View.Shows
  rwa [same]

namespace Kept

variable {view : View Col Val Den} {sheet : Sheet Row Col Val} {e : Edits Row Col Val Den}

theorem alike {next : Sheet Row Col Val} (kept : Kept view sheet e)
    (last : next.last = sheet.last) (saved : next.saved = sheet.saved)
    (same : ∀ row col, view.norm col (next.shown row col) = view.norm col (sheet.shown row col)) :
    Kept view next e where
  pending row col value is := by
    obtain ⟨here, shows⟩ := kept.pending row col value is
    exact ⟨last ▸ here, (same row col).trans shows⟩
  saved row here col := by
    rw [saved]
    exact kept.saved row (last ▸ here) col
  shown row elsewhere col := (kept.shown row (last ▸ elsewhere) col).alike (same row col)

theorem move (kept : Kept view sheet e) (idle : sheet.last = none) (row : Row) :
    Kept view { sheet with last := some row, saved := sheet.shown row } e where
  pending other col value is := by
    have edited := (kept.pending other col value is).1
    rw [idle] at edited
    contradiction
  saved other here col := by
    cases Option.some.inj here
    exact kept.shown row (by simp [idle]) col
  shown other elsewhere col := kept.shown other (by simp [idle]) col

theorem onlyHere (kept : Kept view sheet e) {row other : Row} {col : Col} {value : Val}
    (here : sheet.last = some row) (is : e.status other col = some (.pending value)) :
    other = row :=
  Option.some.inj ((kept.pending other col value is).1.symm.trans here)

theorem elsewhere (kept : Kept view sheet e) {row other : Row} (here : sheet.last = some row)
    (differs : other ≠ row) (col : Col) : view.Shows col (sheet.shown other col) (e.contents other col) :=
  kept.shown other (fun last => differs (Option.some.inj (last.symm.trans here))) col

end Kept

/- `written` is what a statement put into the row, `returned` what the row then holds, if that is
not just this. -/
inductive Event (Row Col Val Den : Type) where
  | edited (row : Row) (col : Col) (value : Val)
  | accepted (row : Row) (written : Col → Option Val) (returned : Option (Col → Den))
  | undone (row : Row)

def overwrite (cells : Col → Val) (new : Col → Option Val) : Col → Val :=
  fun col => (new col).getD (cells col)

namespace View

def held (view : View Col Val Den) (contents : Col → Den) (written : Col → Option Val)
    (returned : Option (Col → Den)) : Col → Den :=
  returned.getD fun col => ((written col).map (view.means col)).getD (contents col)

/- What a statement did about an edit: the value it wrote, or what the row holds where it wrote none. -/
def settled (view : View Col Val Den) (contents : Col → Den) (written : Col → Option Val)
    (returned : Option (Col → Den)) : Col → Den :=
  fun col => ((written col).map (view.means col)).getD (view.held contents written returned col)

def settle [DecidableEq Den] (view : View Col Val Den) (settled : Col → Den) (col : Col) :
    Option (Status Val) → Option (Status Val)
  | some (.pending value) =>
    if view.means col (view.norm col value) = settled col then some (.accepted value)
    else some (.pending value)
  | other => other

end View

variable [DecidableEq Row]

def discard : Option (Status Val) → Option (Status Val)
  | some (.pending value) => some (.discarded value)
  | other => other

namespace Edits

def edit [DecidableEq Col] (e : Edits Row Col Val Den) (row : Row) (col : Col) (value : Val) :
    Edits Row Col Val Den where
  contents := e.contents
  status := Function.update e.status row
    (Function.update (e.status row) col (some (.pending value)))

def accept [DecidableEq Den] (view : View Col Val Den) (e : Edits Row Col Val Den) (row : Row)
    (written : Col → Option Val) (returned : Option (Col → Den)) : Edits Row Col Val Den where
  contents := Function.update e.contents row (view.held (e.contents row) written returned)
  status := Function.update e.status row fun col =>
    view.settle (view.settled (e.contents row) written returned) col (e.status row col)

def undo (e : Edits Row Col Val Den) (row : Row) : Edits Row Col Val Den where
  contents := e.contents
  status := Function.update e.status row fun col => discard (e.status row col)

def record [DecidableEq Col] [DecidableEq Den] (view : View Col Val Den) (e : Edits Row Col Val Den) :
    Event Row Col Val Den → Edits Row Col Val Den
  | .edited row col value => e.edit row col value
  | .accepted row written returned => e.accept view row written returned
  | .undone row => e.undo row

def replay [DecidableEq Col] [DecidableEq Den] (view : View Col Val Den) (e : Edits Row Col Val Den)
    (events : List (Event Row Col Val Den)) : Edits Row Col Val Den := events.foldl (record view) e

end Edits

namespace Kept

variable {view : View Col Val Den} {sheet : Sheet Row Col Val} {e : Edits Row Col Val Den}

theorem edit [DecidableEq Col] (kept : Kept view sheet e) {row : Row} (here : sheet.last = some row)
    (col : Col) (value : Val) :
    Kept view { sheet with
        shown := Function.update sheet.shown row (Function.update (sheet.shown row) col value) }
      (e.edit row col value) where
  pending other c v is := by
    by_cases sameRow : other = row
    · subst sameRow
      refine ⟨here, ?_⟩
      by_cases sameCol : c = col
      · subst sameCol
        have value : value = v := by simpa [Edits.edit] using is
        simp [value]
      · have before : e.status other c = some (.pending v) := by
          simpa [Edits.edit, sameCol] using is
        simpa [sameCol] using (kept.pending other c v before).2
    · have before : e.status other c = some (.pending v) := by
        simpa [Edits.edit, sameRow] using is
      exact absurd (kept.onlyHere here before) sameRow
  saved other last c := kept.saved other last c
  shown other elsewhere c := by
    have sameRow : other ≠ row := fun same => elsewhere (same ▸ here)
    simpa [Edits.edit, sameRow] using kept.shown other elsewhere c

theorem accept [DecidableEq Den] (kept : Kept view sheet e) {row : Row} (here : sheet.last = some row)
    {written : Col → Option Val} {returned : Option (Col → Den)} {after : Col → Val}
    (told : ∀ col, view.Shows col (after col) (view.held (e.contents row) written returned col))
    (settled : ∀ col value, e.status row col = some (.pending value) →
      view.means col (view.norm col value) = view.settled (e.contents row) written returned col) :
    Kept view { sheet with shown := Function.update sheet.shown row after, last := none }
      (e.accept view row written returned) := by
  refine ⟨?_, (fun _ last => nomatch last), ?_⟩
  · intro other col value is
    by_cases sameRow : other = row
    · subst sameRow
      have after : view.settle (view.settled (e.contents other) written returned) col (e.status other col) =
          some (.pending value) := by simpa [Edits.accept] using is
      unfold View.settle at after
      split at after
      · rename_i v before
        rw [if_pos (settled col v before)] at after
        exact nomatch after
      · rename_i notPending
        exact absurd after (notPending value)
    · have before : e.status other col = some (.pending value) := by
        simpa [Edits.accept, sameRow] using is
      exact absurd (kept.onlyHere here before) sameRow
  · intro other _ col
    by_cases sameRow : other = row
    · subst sameRow
      simpa [Edits.accept] using told col
    · simp only [Edits.accept, Function.update_of_ne sameRow]
      exact kept.elsewhere here sameRow col

theorem undo (kept : Kept view sheet e) {row : Row} (here : sheet.last = some row) :
    Kept view { sheet with
        shown := Function.update sheet.shown row sheet.saved
        last := none }
      (e.undo row) := by
  refine ⟨?_, (fun _ last => nomatch last), ?_⟩
  · intro other col value is
    by_cases sameRow : other = row
    · subst sameRow
      have after : discard (e.status other col) = some (.pending value) := by
        simpa [Edits.undo] using is
      unfold discard at after
      split at after
      · exact nomatch after
      · rename_i notPending
        exact absurd after (notPending value)
    · have before : e.status other col = some (.pending value) := by
        simpa [Edits.undo, sameRow] using is
      exact absurd (kept.onlyHere here before) sameRow
  · intro other _ col
    by_cases sameRow : other = row
    · subst sameRow
      simpa [Edits.undo] using kept.saved other here col
    · simp only [Edits.undo, Function.update_of_ne sameRow]
      exact kept.elsewhere here sameRow col

end Kept

end PgAdmin.PendingEdit
