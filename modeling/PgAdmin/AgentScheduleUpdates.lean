import PgAdmin.AgentSchedule
import Mathlib.Data.List.Forall2

/-! What is stored of a pgAgent schedule when the statements for an editing session have been executed. -/
namespace PgAdmin.dlgSchedule
open PgsObjects (Text)
open KeyedTable (set drop)

section History
variable {f : Formats}
local instance : DecidableEq f.Date := f.decDate
local instance : DecidableEq f.Time := f.decTime

structure Item (f : Formats) where
  origin : Option (Text × Value f)
  value : Value f
  changed : Bool

def entered (calException : Option f.Date) (timException : f.Time) : Value f :=
  (calException, if timException = f.midnight then none else some timException)

def follow (d : Dialog f) (items : List (Item f)) : Edit f → List (Item f)
  | .add cal tim =>
    if (refused cal tim d.lstExceptions).isSome then items else items ++ [⟨none, entered cal tim, false⟩]
  | .change item cal tim =>
    if (refused cal tim (d.lstExceptions.eraseIdx item)).isSome then items
    else items.modify item fun it => { it with value := entered cal tim, changed := true }
  | .remove item => items.eraseIdx item
  | _ => items

def step (session : Dialog f × List (Item f)) (e : Edit f) : Dialog f × List (Item f) :=
  (edit session.1 e, follow session.1 session.2 e)

def session (stored : Stored f) (edits : List (Edit f)) : Dialog f × List (Item f) :=
  edits.foldl step (Go stored.schedule (exceptionsText stored.exceptions),
    stored.exceptions.map fun e => ⟨some e, e.2, false⟩)

structure RowOf (row : Row) (item : Item f) : Prop where
  value : row.value f = item.value
  id : row.id = (item.origin.map Prod.fst).getD []
  dirty : row.dirty = if item.changed then BoolToStr true else if item.origin.isSome then BoolToStr false else []

structure Follows (stored : Stored f) (d : Dialog f) (items : List (Item f)) : Prop where
  rows : List.Forall₂ RowOf d.lstExceptions items
  kept : d.deleteExceptions.foldl (fun table id => drop id table) stored.exceptions = items.filterMap Item.origin
  unchanged : ∀ item ∈ items, item.changed = false → ∀ e ∈ item.origin, item.value = e.2
  gone : ∀ id ∈ d.deleteExceptions, id ∈ stored.exceptions.map Prod.fst

end History

section Loading
variable {f : Formats} (inverse : f.Inverse)

def loadedRow (e : Text × Value f) : Row :=
  ⟨(e.2.1.map f.FormatDate).getD any, (e.2.2.map f.FormatTime).getD any, BoolToStr false, e.1⟩

def dateToken (e : Text × Value f) : Text := (e.2.1.map f.FormatISODate).getD []

def timeToken (e : Text × Value f) : Text := (e.2.2.map f.FormatISOTime).getD []

theorem exceptionsCons (e : Text × Value f) (es : List (Text × Value f)) : exceptionsText (e :: es) =
    e.1 ++ '|' :: (dateToken e ++ '|' :: (timeToken e ++ '|' :: exceptionsText es)) := by
  rw [exceptionsText, List.flatMap_cons]
  simp [dateToken, timeToken, exceptionsText]

theorem modifyLast {α : Type} (rows : List α) (row : α) (change : α → α) :
    (rows ++ [row]).modify rows.length change = rows ++ [change row] := by
  induction rows with
  | nil => rfl
  | cons first rows ih => exact congrArg (first :: ·) ih

theorem moreTokens {word : Text} (some_ : word ≠ []) (free : '|' ∉ word) (start : Bool) (before after : Text) :
    HasMoreTokens start (before ++ (word ++ after)) = true := by
  cases word with
  | nil => exact absurd rfl some_
  | cons c word =>
    have other : c ≠ '|' := fun same => free (same ▸ List.mem_cons_self)
    simp [HasMoreTokens, other]

include inverse

theorem datePlain (e : Text × Value f) : '|' ∉ dateToken e := by
  unfold dateToken
  cases e.2.1 with
  | none => exact List.not_mem_nil
  | some d => exact (inverse.plainDate d).2

theorem timePlain (e : Text × Value f) : '|' ∉ timeToken e := by
  unfold timeToken
  cases e.2.2 with
  | none => exact List.not_mem_nil
  | some t => exact (inverse.plainTime t).2

theorem loadedGiven {e : Text × Value f} (given : e.2 ≠ (none, none)) :
    (dateToken e ≠ [] ∨ timeToken e ≠ []) ∧
      (loadRow f (dateToken e) (timeToken e)).map (fun row => { row with dirty := BoolToStr false, id := e.1 }) =
        some (loadedRow e) := by
  obtain ⟨id, date, time⟩ := e
  unfold loadRow loadedRow dateToken timeToken
  cases date with
  | none =>
    cases time with
    | none => exact absurd rfl given
    | some t =>
      have some_ := (inverse.plainTime t).1
      exact ⟨.inr some_, by simp [some_, inverse.isoTime]⟩
  | some d =>
    have some_ := (inverse.plainDate d).1
    cases time with
    | none => exact ⟨.inl some_, by simp [some_, inverse.isoDate]⟩
    | some t =>
      have someTime := (inverse.plainTime t).1
      exact ⟨.inl some_, by simp [some_, someTime, inverse.isoDate, inverse.isoTime]⟩

theorem loadedAll (es : List (Text × Value f)) (numbers : ∀ e ∈ es, e.1 ≠ [] ∧ '|' ∉ e.1)
    (given : ∀ e ∈ es, e.2 ≠ (none, none)) {fuel : ℕ} (enough : es.length ≤ fuel) (start : Bool) (pos : ℕ)
    (rows : List Row) :
    loadExceptions f fuel start (exceptionsText es) pos rows = rows ++ es.map loadedRow := by
  induction es generalizing fuel start pos rows with
  | nil =>
    cases fuel with
    | zero => exact (List.append_nil _).symm
    | succ fuel =>
      have done : HasMoreTokens start (exceptionsText ([] : List (Text × Value f))) = false := by
        simp [HasMoreTokens, exceptionsText]
      rw [loadExceptions, done]
      exact (List.append_nil _).symm
  | cons e es ih =>
    obtain ⟨fuel, rfl⟩ : ∃ n, fuel = n + 1 := ⟨fuel - 1, by simp at enough; omega⟩
    obtain ⟨⟨number, free⟩, numbers⟩ := List.forall_mem_cons.mp numbers
    obtain ⟨here, given⟩ := List.forall_mem_cons.mp given
    obtain ⟨some_, row⟩ := loadedGiven inverse here
    obtain ⟨loaded, isRow, filled⟩ := Option.map_eq_some_iff.mp row
    have date : nextToken (dateToken e ++ '|' :: (timeToken e ++ '|' :: exceptionsText es)) =
        (dateToken e, timeToken e ++ '|' :: exceptionsText es) := by
      have more : HasMoreTokens false (dateToken e ++ '|' :: (timeToken e ++ '|' :: exceptionsText es)) = true := by
        rcases some_ with isDate | isTime
        · exact moreTokens isDate (datePlain inverse e) false [] _
        · have inside := moreTokens isTime (timePlain inverse e) false (dateToken e ++ ['|'])
            ('|' :: exceptionsText es)
          simpa using inside
      rw [nextToken, if_pos more, token, behind, wxString.beforeFirstStop (datePlain inverse e),
        wxString.afterFirstStop (datePlain inverse e)]
    have rest := @ih numbers given fuel (by simpa using enough) false rows.length (rows ++ [loadedRow e])
    have list : rows ++ [loadedRow e] ++ es.map loadedRow = rows ++ (e :: es).map loadedRow := by simp
    rw [list] at rest
    have time : ∃ left, nextToken (timeToken e ++ '|' :: exceptionsText es) = (timeToken e, left) ∧
        loadExceptions f fuel false left rows.length (rows ++ [loadedRow e]) = rows ++ (e :: es).map loadedRow := by
      by_cases last : timeToken e = [] ∧ es = []
      case pos =>
        obtain ⟨noTime, rfl⟩ := last
        have none_ :
            HasMoreTokens false (timeToken e ++ '|' :: exceptionsText ([] : List (Text × Value f))) = false := by
          simp [HasMoreTokens, noTime, exceptionsText]
        refine ⟨timeToken e ++ '|' :: exceptionsText ([] : List (Text × Value f)),
          by rw [nextToken, none_, noTime]; rfl, ?_⟩
        cases fuel with
        | zero => rfl
        | succ fuel =>
          rw [loadExceptions, none_]
          rfl
      case neg =>
        have more : HasMoreTokens false (timeToken e ++ '|' :: exceptionsText es) = true := by
          rcases not_and_or.mp last with isTime | later
          · exact moreTokens isTime (timePlain inverse e) false [] _
          · obtain ⟨next, es', rfl⟩ := List.exists_cons_of_ne_nil later
            obtain ⟨⟨someNumber, plain⟩, -⟩ := List.forall_mem_cons.mp numbers
            have inside := moreTokens someNumber plain false (timeToken e ++ ['|'])
              ('|' :: (dateToken next ++ '|' :: (timeToken next ++ '|' :: exceptionsText es')))
            rw [exceptionsCons]
            simpa using inside
        refine ⟨exceptionsText es, ?_, rest⟩
        rw [nextToken, if_pos more, token, behind, wxString.beforeFirstStop (timePlain inverse e),
          wxString.afterFirstStop (timePlain inverse e)]
    obtain ⟨left, time, rest⟩ := time
    have more := moreTokens number free start []
      ('|' :: (dateToken e ++ '|' :: (timeToken e ++ '|' :: exceptionsText es)))
    rw [List.nil_append] at more
    rw [loadExceptions, exceptionsCons, if_pos more]
    dsimp only
    rw [token, behind, wxString.beforeFirstStop free, wxString.afterFirstStop free, date]
    dsimp only
    rw [time]
    dsimp only
    rw [isRow]
    dsimp only
    rw [modifyLast, filled]
    exact rest

theorem loadedOf {e : Text × Value f} : RowOf (loadedRow e) ⟨some e, e.2, false⟩ := by
  obtain ⟨id, date, time⟩ := e
  refine ⟨?_, rfl, rfl⟩
  have dateCell : (if (date.map f.FormatDate).getD any = any then none
      else some (f.ParseFormat ((date.map f.FormatDate).getD any))) = date := by
    cases date with
    | none => rfl
    | some d => simp [inverse.dateNotAny, inverse.date]
  have timeCell : (if (time.map f.FormatTime).getD any = any then none
      else some (f.ParseTime ((time.map f.FormatTime).getD any))) = time := by
    cases time with
    | none => rfl
    | some t => simp [inverse.timeNotAny, inverse.time]
  exact congr (congrArg Prod.mk dateCell) timeCell

theorem started (stored : Stored f) : Follows stored (Go stored.schedule (exceptionsText stored.exceptions))
    (stored.exceptions.map fun e => ⟨some e, e.2, false⟩) := by
  have enough : stored.exceptions.length ≤ (exceptionsText stored.exceptions).length := by
    generalize stored.exceptions = es
    induction es with
    | nil => exact Nat.zero_le _
    | cons e es ih =>
      rw [exceptionsCons]
      simp only [List.length_append, List.length_cons]
      omega
  have rows : (Go stored.schedule (exceptionsText stored.exceptions)).lstExceptions =
      stored.exceptions.map loadedRow :=
    loadedAll inverse stored.exceptions stored.numbers stored.given enough true 0 []
  refine ⟨?_, ?_, ?_, fun id none => absurd none List.not_mem_nil⟩
  · rw [rows, List.forall₂_map_left_iff, List.forall₂_map_right_iff, List.forall₂_same]
    exact fun e _ => loadedOf inverse
  · simp [Go, List.filterMap_map]
  · intro item member _ e origin
    obtain ⟨e', -, rfl⟩ := List.mem_map.mp member
    cases origin
    rfl

end Loading

section Editing
variable {f : Formats} (inverse : f.Inverse)
local instance : DecidableEq f.Date := f.decDate
local instance : DecidableEq f.Time := f.decTime

theorem forall₂Modify {α β : Type} {R : α → β → Prop} {as : List α} {bs : List β} (all : List.Forall₂ R as bs)
    {g : α → α} {h : β → β} (keeps : ∀ a b, R a b → R (g a) (h b)) (i : ℕ) :
    List.Forall₂ R (as.modify i g) (bs.modify i h) := by
  induction all generalizing i with
  | nil => cases i <;> exact .nil
  | cons here rest ih =>
    cases i with
    | zero => exact .cons (keeps _ _ here) rest
    | succ i => exact .cons here (ih i)

theorem forall₂Erase {α β : Type} {R : α → β → Prop} {as : List α} {bs : List β} (all : List.Forall₂ R as bs)
    (i : ℕ) : List.Forall₂ R (as.eraseIdx i) (bs.eraseIdx i) := by
  induction all generalizing i with
  | nil => exact .nil
  | cons here rest ih =>
    cases i with
    | zero => exact rest
    | succ i => exact .cons here (ih i)

theorem forall₂Get {α β : Type} {R : α → β → Prop} {as : List α} {bs : List β} (all : List.Forall₂ R as bs)
    {i : ℕ} {a : α} (here : as[i]? = some a) : ∃ b, bs[i]? = some b ∧ R a b := by
  induction all generalizing i with
  | nil => cases here
  | cons first rest ih =>
    cases i with
    | zero =>
      cases here
      exact ⟨_, rfl, first⟩
    | succ i => exact ih here

theorem filterMapModify {α β : Type} {h : α → Option β} {g : α → α} (same : ∀ a, h (g a) = h a) (i : ℕ)
    (as : List α) : (as.modify i g).filterMap h = as.filterMap h := by
  induction as generalizing i with
  | nil => cases i <;> rfl
  | cons a as ih =>
    cases i with
    | zero => rw [List.modify_zero_cons, List.filterMap_cons, List.filterMap_cons, same]
    | succ i => rw [List.modify_succ_cons, List.filterMap_cons, List.filterMap_cons, ih]

theorem memModify {α : Type} {g : α → α} {i : ℕ} {as : List α} {a : α} (member : a ∈ as.modify i g) :
    a ∈ as ∨ ∃ b ∈ as, a = g b := by
  induction as generalizing i with
  | nil =>
    rw [List.modify_nil] at member
    cases member
  | cons first as ih =>
    cases i with
    | zero =>
      rcases List.mem_cons.mp member with rfl | later
      · exact .inr ⟨first, List.mem_cons_self, rfl⟩
      · exact .inl (List.mem_cons_of_mem _ later)
    | succ i =>
      rcases List.mem_cons.mp member with rfl | later
      · exact .inl List.mem_cons_self
      · rcases ih later with old | ⟨b, inside, rfl⟩
        · exact .inl (List.mem_cons_of_mem _ old)
        · exact .inr ⟨b, List.mem_cons_of_mem _ inside, rfl⟩

theorem droppedKeys (ids : List Text) (table : List (Text × Value f)) :
    (ids.foldl (fun table id => drop id table) table).Sublist table := by
  induction ids generalizing table with
  | nil => exact List.Sublist.refl _
  | cons id ids ih => exact (ih _).trans List.filter_sublist

theorem originStored {stored : Stored f} {d : Dialog f} {items : List (Item f)} (follows : Follows stored d items)
    {item : Item f} (member : item ∈ items) {e : Text × Value f} (origin : item.origin = some e) :
    e ∈ stored.exceptions := by
  have inside : e ∈ items.filterMap Item.origin := List.mem_filterMap.mpr ⟨item, member, origin⟩
  rw [← follows.kept] at inside
  exact (droppedKeys _ _).subset inside

theorem originKeys {stored : Stored f} {d : Dialog f} {items : List (Item f)} (follows : Follows stored d items) :
    ((items.filterMap Item.origin).map Prod.fst).Nodup := by
  rw [← follows.kept]
  exact stored.keys.sublist ((droppedKeys _ _).map _)

theorem removed {stored : Stored f} {d : Dialog f} {items : List (Item f)} (follows : Follows stored d items)
    (i : ℕ) : Follows stored (OnRemoveException d i) (items.eraseIdx i) := by
  have unchanged : ∀ item ∈ items.eraseIdx i, item.changed = false → ∀ e ∈ item.origin, item.value = e.2 :=
    fun item member => follows.unchanged item (List.mem_of_mem_eraseIdx member)
  cases here : d.lstExceptions[i]? with
  | none =>
    have short := List.getElem?_eq_none_iff.mp here
    have same : OnRemoveException d i = d := by
      rw [OnRemoveException, here, List.eraseIdx_of_length_le short]
      rfl
    rw [same, List.eraseIdx_of_length_le (follows.rows.length_eq ▸ short)]
    exact follows
  | some row =>
    obtain ⟨item, there, of⟩ := forall₂Get follows.rows here
    obtain ⟨inside, isItem⟩ := List.getElem?_eq_some_iff.mp there
    obtain ⟨before, after, split, erased⟩ :
        ∃ before after, items = before ++ item :: after ∧ items.eraseIdx i = before ++ after := by
      refine ⟨items.take i, items.drop (i + 1), ?_, List.eraseIdx_eq_take_drop_succ ..⟩
      rw [← isItem, List.cons_getElem_drop_succ, List.take_append_drop]
    have id : (d.lstExceptions[i]?.map Row.id).getD [] = (item.origin.map Prod.fst).getD [] := by
      rw [here]
      exact of.id
    unfold OnRemoveException
    dsimp only
    rw [id]
    cases origin : item.origin with
    | none =>
      refine ⟨forall₂Erase follows.rows i, ?_, unchanged, follows.gone⟩
      dsimp only [Option.map_none, Option.getD_none]
      rw [if_neg (not_not.mpr rfl), follows.kept, erased, split, List.filterMap_append, List.filterMap_append,
        List.filterMap_cons_none origin]
    | some e =>
      have old := originStored follows (List.mem_of_getElem? there) origin
      have number := (stored.numbers e old).1
      dsimp only [Option.map_some, Option.getD_some]
      rw [if_pos number]
      refine ⟨forall₂Erase follows.rows i, ?_, unchanged, ?_⟩
      · have keys := originKeys follows
        dsimp only
        rw [List.foldl_append, follows.kept, erased]
        rw [split, List.filterMap_append, List.filterMap_cons_some origin] at keys ⊢
        rw [List.foldl_cons, List.foldl_nil, KeyedTable.dropHere keys, List.filterMap_append]
      · intro id member
        rcases List.mem_append.mp member with earlier | last
        · exact follows.gone id earlier
        · cases List.mem_singleton.mp last
          exact List.mem_map_of_mem old

include inverse

theorem enteredRow (cal : Option f.Date) (tim : f.Time) (row : Row) :
    ({ row with date := exDate cal, time := exTime tim } : Row).value f = entered cal tim := by
  have dateCell : (if exDate cal = any then none else some (f.ParseFormat (exDate cal))) = cal := by
    unfold exDate
    cases cal with
    | none => rfl
    | some d => simp [inverse.dateNotAny, inverse.date]
  have timeCell : (if exTime tim = any then none else some (f.ParseTime (exTime tim))) =
      if tim = f.midnight then none else some tim := by
    unfold exTime
    by_cases span : tim = f.midnight
    · simp [span]
    · simp [span, inverse.timeNotAny, inverse.span]
  exact congr (congrArg Prod.mk dateCell) timeCell

theorem added {stored : Stored f} {d : Dialog f} {items : List (Item f)} (follows : Follows stored d items)
    (cal : Option f.Date) (tim : f.Time) :
    Follows stored (OnAddException d cal tim) (follow d items (.add cal tim)) := by
  unfold OnAddException follow
  dsimp only
  split
  · exact follows
  · refine ⟨?_, ?_, ?_, follows.gone⟩
    · exact List.rel_append follows.rows (.cons ⟨enteredRow inverse cal tim ⟨[], [], [], []⟩, rfl, rfl⟩ .nil)
    · rw [List.filterMap_append]
      exact follows.kept.trans (List.append_nil _).symm
    · intro item member
      rcases List.mem_append.mp member with old | new
      · exact follows.unchanged item old
      · cases List.mem_singleton.mp new
        exact fun _ e none => by cases none

theorem changed {stored : Stored f} {d : Dialog f} {items : List (Item f)} (follows : Follows stored d items)
    (i : ℕ) (cal : Option f.Date) (tim : f.Time) :
    Follows stored (OnChangeException d i cal tim) (follow d items (.change i cal tim)) := by
  unfold OnChangeException follow
  dsimp only
  split
  · exact follows
  · refine ⟨forall₂Modify follows.rows (fun row item of => ?_) i, ?_, ?_, follows.gone⟩
    · exact ⟨enteredRow inverse cal tim { row with dirty := BoolToStr true }, of.id, rfl⟩
    · dsimp only
      rw [@filterMapModify _ _ Item.origin (fun it => { it with value := entered cal tim, changed := true })
        fun _ => rfl]
      exact follows.kept
    · intro item member
      rcases memModify member with old | ⟨it, -, rfl⟩
      · exact follows.unchanged item old
      · exact fun no => by cases no

theorem stepFollows {stored : Stored f} {d : Dialog f} {items : List (Item f)} (follows : Follows stored d items)
    (e : Edit f) : Follows stored (edit d e) (follow d items e) := by
  cases e with
  | add cal tim => exact added inverse follows cal tim
  | change i cal tim => exact changed inverse follows i cal tim
  | remove i => exact removed follows i
  | name | comment | enabled | start | finish | check =>
    exact ⟨follows.rows, follows.kept, follows.unchanged, follows.gone⟩

theorem sessionFollows (stored : Stored f) (edits : List (Edit f)) :
    Follows stored (session stored edits).1 (session stored edits).2 := by
  have begun := started inverse stored
  unfold session
  generalize Go stored.schedule (exceptionsText stored.exceptions) = d at begun ⊢
  generalize (stored.exceptions.map fun e => (⟨some e, e.2, false⟩ : Item f)) = items at begun ⊢
  induction edits generalizing d items with
  | nil => exact begun
  | cons e edits ih => exact ih _ _ (stepFollows inverse begun e)

end Editing

end PgAdmin.dlgSchedule
