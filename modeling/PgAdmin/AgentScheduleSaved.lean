import PgAdmin.AgentScheduleUpdates
import Mathlib.Data.List.Perm.Basic

/-! When the statements for an editing session leave the stored schedule as it is in the dialog. -/
namespace PgAdmin.dlgSchedule
open PgsObjects (Text)
open KeyedTable (set drop)

section Saved
variable {f : Formats}
local instance : DecidableEq f.Date := f.decDate
local instance : DecidableEq f.Time := f.decTime

def shown (stored : Schedule f) (d : Dialog f) : Schedule f where
  name := GetName stored d
  comment := d.txtComment
  enabled := d.chkEnabled
  start := (d.calStart, d.timStart)
  finish := d.calEnd.map (·, d.timEnd)
  lists := d.lists

def Statement.Writes (stored : Stored f) : Statement f → Prop
  | .schedule vars => ∀ a ∈ vars, a.assign stored.schedule ≠ stored.schedule
  | .delete id => drop id stored.exceptions ≠ stored.exceptions
  | .update id value => set id value stored.exceptions ≠ stored.exceptions
  | .insert _ => True

def executed (serial : List (Text × Value f) → Text) (stored : Stored f) (d : Dialog f) : Database f :=
  (statements stored.schedule d).foldl (Statement.execute serial) ⟨stored.schedule, stored.exceptions⟩

structure Saved (serial : List (Text × Value f) → Text) (stored : Stored f) (d : Dialog f) : Prop where
  schedule : (executed serial stored d).schedule = shown stored.schedule d
  exceptions : ((executed serial stored d).exceptions.map Prod.snd).Perm (d.lstExceptions.map (Row.value f))
  writes : ∀ s ∈ statements stored.schedule d, s.Writes stored

theorem strArray {bits bits' : List Bool} (same : ChkListBox2StrArray bits = ChkListBox2StrArray bits') :
    bits = bits' := by
  refine List.map_injective_iff.mpr (fun a b equal => ?_) same
  cases a <;> cases b <;> simp_all

def writtenFinish (stored : Schedule f) (d : Dialog f) : Option (f.Date × f.Time) :=
  d.calEnd.map (·, if stored.finish.isSome then d.timEnd else f.midnight)

theorem whenAssigned {p : Prop} [Decidable p] {a : Assignment f} {s s' : Schedule f} (new : a.assign s = s')
    (old : ¬p → s = s') : (if p then [a] else []).foldl Assignment.assign s = s' := by
  split
  case isTrue => exact new
  case isFalse not => exact old not

theorem finishAssigned {stored s : Schedule f} (d : Dialog f) (same : s.finish = stored.finish) :
    (finishVars stored d).foldl Assignment.assign s = { s with finish := writtenFinish stored d } := by
  unfold finishVars writtenFinish
  split
  case h_1 cal finish isCal isFinish =>
    rw [isFinish] at same
    rw [isCal, isFinish]
    refine whenAssigned rfl fun equal => ?_
    have own : s.finish = some (cal, d.timEnd) := same.trans (congrArg some (not_not.mp equal).symm)
    change s = { s with finish := some (cal, d.timEnd) }
    rw [← own]
  case h_2 cal isCal isFinish =>
    rw [isCal, isFinish]
    rfl
  case h_3 finish isCal isFinish =>
    rw [isCal]
    rfl
  case h_4 isCal isFinish =>
    rw [isCal]
    rw [isFinish] at same
    rw [Option.map_none, ← same]
    rfl

theorem listAssigned {stored s : Schedule f} (d : Dialog f) (list : CheckList)
    (same : s.lists list = stored.lists list) :
    (listVars stored d list).foldl Assignment.assign s =
      { s with lists := Function.update s.lists list (d.lists list) } :=
  whenAssigned rfl fun equal => by
    rw [strArray (not_not.mp equal), ← same, Function.update_eq_self]

theorem listsAssigned {stored s : Schedule f} (d : Dialog f) (same : s.lists = stored.lists) :
    ([CheckList.minutes, .hours, .weekdays, .monthdays, .months].flatMap (listVars stored d)).foldl
      Assignment.assign s = { s with lists := d.lists } := by
  have each (lists : List CheckList) (distinct : lists.Nodup) (s : Schedule f)
      (same : ∀ list ∈ lists, s.lists list = stored.lists list) :
      (lists.flatMap (listVars stored d)).foldl Assignment.assign s =
        { s with lists := fun list => if list ∈ lists then d.lists list else s.lists list } := by
    induction lists generalizing s with
    | nil => rfl
    | cons list lists ih =>
      obtain ⟨new, distinct⟩ := List.nodup_cons.mp distinct
      obtain ⟨here, later⟩ := List.forall_mem_cons.mp same
      rw [List.flatMap_cons, List.foldl_append, listAssigned d list here, ih distinct]
      · refine congrArg (fun lists => { s with lists := lists }) (funext fun other => ?_)
        by_cases own : other = list
        · subst own
          simp [new]
        · simp [own]
      · intro other member
        have apart : other ≠ list := fun equal => new (equal ▸ member)
        simpa [apart] using later other member
  rw [each _ (by decide) s fun list _ => by rw [same]]
  refine congrArg (fun lists => { s with lists := lists }) (funext fun list => if_pos ?_)
  cases list <;> decide

theorem varsAssigned (stored : Schedule f) (d : Dialog f) :
    (vars stored d).foldl Assignment.assign stored =
      { shown stored d with finish := writtenFinish stored d } := by
  have name : (nameVars stored d).foldl Assignment.assign stored = { stored with name := GetName stored d } :=
    whenAssigned rfl fun equal => by rw [not_not.mp equal]
  have comment : (commentVars stored d).foldl Assignment.assign { stored with name := GetName stored d } =
      { stored with name := GetName stored d, comment := d.txtComment } :=
    whenAssigned rfl fun equal => by rw [not_not.mp equal]
  have enabled : (enabledVars stored d).foldl Assignment.assign
      { stored with name := GetName stored d, comment := d.txtComment } =
      { stored with name := GetName stored d, comment := d.txtComment, enabled := d.chkEnabled } :=
    whenAssigned rfl fun equal => by rw [not_not.mp equal]
  have start : (startVars stored d).foldl Assignment.assign
      { stored with name := GetName stored d, comment := d.txtComment, enabled := d.chkEnabled } =
      { stored with
        name := GetName stored d, comment := d.txtComment, enabled := d.chkEnabled,
        start := (d.calStart, d.timStart) } :=
    whenAssigned rfl fun equal => by rw [not_not.mp equal]
  rw [vars, List.foldl_append, List.foldl_append, List.foldl_append, List.foldl_append, List.foldl_append, name,
    comment, enabled, start]
  exact (congrArg (List.foldl Assignment.assign · _) (finishAssigned d (by rfl))).trans (listsAssigned d (by rfl))

theorem finishShown (stored : Schedule f) (d : Dialog f) :
    ({ shown stored d with finish := writtenFinish stored d } : Schedule f) = shown stored d ↔
      (stored.finish = none → ∀ cal, d.calEnd = some cal → d.timEnd = f.midnight) := by
  have ends : ({ shown stored d with finish := writtenFinish stored d } : Schedule f) = shown stored d ↔
      writtenFinish stored d = d.calEnd.map (·, d.timEnd) :=
    ⟨fun same => congrArg Schedule.finish same, fun same => by rw [same]; rfl⟩
  rw [ends]
  unfold writtenFinish
  cases d.calEnd with
  | none => simp
  | some cal =>
    cases stored.finish with
    | none => simp [eq_comm]
    | some finish => simp

theorem memWhen {α : Type} {p : Prop} [Decidable p] {a b : α} (member : a ∈ if p then [b] else []) : p ∧ a = b := by
  split at member
  case isTrue holds => exact ⟨holds, List.mem_singleton.mp member⟩
  case isFalse => cases member

theorem varsWrite (stored : Schedule f) (d : Dialog f) :
    ∀ a ∈ vars stored d, a.assign stored ≠ stored := by
  intro a member same
  simp only [vars, List.mem_append] at member
  rcases member with ((((name | comment) | enabled) | start) | finish) | lists
  · obtain ⟨differs, rfl⟩ := memWhen name
    exact differs (congrArg Schedule.name same)
  · obtain ⟨differs, rfl⟩ := memWhen comment
    exact differs (congrArg Schedule.comment same)
  · obtain ⟨differs, rfl⟩ := memWhen enabled
    exact differs (congrArg Schedule.enabled same)
  · obtain ⟨differs, rfl⟩ := memWhen start
    exact differs (congrArg Schedule.start same)
  · unfold finishVars at finish
    split at finish
    case h_1 cal end_ isCal isFinish =>
      obtain ⟨differs, rfl⟩ := memWhen finish
      have equal : some (cal, d.timEnd) = stored.finish := congrArg Schedule.finish same
      rw [isFinish] at equal
      exact differs (Option.some.inj equal)
    case h_2 cal isCal isFinish =>
      cases List.mem_singleton.mp finish
      have equal : some (cal, f.midnight) = stored.finish := congrArg Schedule.finish same
      rw [isFinish] at equal
      cases equal
    case h_3 end_ isCal isFinish =>
      cases List.mem_singleton.mp finish
      have equal : none = stored.finish := congrArg Schedule.finish same
      rw [isFinish] at equal
      cases equal
    case h_4 => cases finish
  · obtain ⟨list, -, here⟩ := List.mem_flatMap.mp lists
    obtain ⟨differs, rfl⟩ := memWhen here
    have equal : Function.update stored.lists list (d.lists list) list = stored.lists list :=
      congrFun (congrArg Schedule.lists same) list
    rw [Function.update_self] at equal
    exact differs (by rw [equal])

end Saved

section Exceptions
variable {f : Formats} {stored : Stored f} {d : Dialog f} {items : List (Item f)}

def keyed (item : Item f) : Option (Text × Value f × Option (Value f)) :=
  item.origin.map fun e => (e.1, e.2, if item.changed then some item.value else none)

theorem emptyDirty : BoolToStr true ≠ [] ∧ BoolToStr false ≠ [] ∧ BoolToStr false ≠ BoolToStr true := by decide

theorem updatesOf (follows : Follows stored d items) : updates f d.lstExceptions =
    ((items.filterMap keyed).filterMap fun row => row.2.2.map (row.1, ·)).map fun (id, value) => .update id value := by
  have rows := follows.rows
  have origins : ∀ item ∈ items, ∀ e ∈ item.origin, e.1 ≠ [] := fun item member e origin =>
    (stored.numbers e (originStored follows member origin)).1
  generalize d.lstExceptions = cells at rows
  clear follows
  unfold updates
  induction rows with
  | nil => rfl
  | @cons row item cells items of rest ih =>
    obtain ⟨here, later⟩ := List.forall_mem_cons.mp origins
    have head :
        (if row.dirty = BoolToStr true ∧ row.id ≠ [] then some (Statement.update row.id (row.value f)) else none) =
        ((keyed item).bind fun row => row.2.2.map (row.1, ·)).map fun (id, value) => .update id value := by
      obtain ⟨origin, value, changed⟩ := item
      rw [of.dirty, of.id, of.value]
      cases origin with
      | none => simp [keyed]
      | some e =>
        cases changed with
        | true => simp [keyed, here e rfl]
        | false => simp [keyed, emptyDirty]
    rw [List.filterMap_filterMap] at ih ⊢
    rw [List.filterMap_cons, List.filterMap_cons, head, ih later]
    cases (keyed item).bind fun row => row.2.2.map (row.1, ·) <;> rfl

theorem insertsOf (follows : Follows stored d items) : inserts f d.lstExceptions =
    (items.filter fun item => item.origin.isNone && !item.changed).map fun item => .insert item.value := by
  have rows := follows.rows
  generalize d.lstExceptions = cells at rows
  clear follows
  unfold inserts
  induction rows with
  | nil => rfl
  | @cons row item cells items of rest ih =>
    have head : (if row.dirty = [] ∧ row.id = [] then some (Statement.insert (row.value f)) else none) =
        if item.origin.isNone && !item.changed then some (.insert item.value) else none := by
      obtain ⟨origin, value, changed⟩ := item
      rw [of.dirty, of.id, of.value]
      cases origin with
      | none => cases changed <;> simp [emptyDirty]
      | some e => cases changed <;> simp [emptyDirty]
    rw [List.filterMap_cons, head, ih, List.filter_cons]
    cases item.origin.isNone && !item.changed <;> rfl

theorem scheduleRun (serial : List (Text × Value f) → Text) (vars : List (Assignment f)) (db : Database f) :
    (if vars ≠ [] then [Statement.schedule vars] else []).foldl (Statement.execute serial) db =
      ⟨vars.foldl Assignment.assign db.schedule, db.exceptions⟩ := by
  split
  case isTrue => rfl
  case isFalse empty => rw [not_not.mp empty]; rfl

theorem deleteRun (serial : List (Text × Value f) → Text) (ids : List Text) (db : Database f) :
    (ids.map Statement.delete).foldl (Statement.execute serial) db =
      ⟨db.schedule, ids.foldl (fun table id => drop id table) db.exceptions⟩ := by
  induction ids generalizing db with
  | nil => rfl
  | cons id ids ih => exact ih _

theorem updateRun (serial : List (Text × Value f) → Text) (changes : List (Text × Value f)) (db : Database f) :
    (changes.map fun (id, value) => Statement.update id value).foldl (Statement.execute serial) db =
      ⟨db.schedule, changes.foldl (fun table change => set change.1 change.2 table) db.exceptions⟩ := by
  induction changes generalizing db with
  | nil => rfl
  | cons change changes ih => exact ih _

theorem insertRun (serial : List (Text × Value f) → Text) (values : List (Value f)) (db : Database f) :
    ∃ new, (values.map Statement.insert).foldl (Statement.execute serial) db = ⟨db.schedule, db.exceptions ++ new⟩ ∧
      new.map Prod.snd = values := by
  induction values generalizing db with
  | nil => exact ⟨[], by rw [List.append_nil]; rfl, rfl⟩
  | cons value values ih =>
    obtain ⟨new, run, same⟩ := ih (Statement.execute serial db (.insert value))
    refine ⟨(serial db.exceptions, value) :: new, run.trans ?_, congrArg (value :: ·) same⟩
    simp [Statement.execute]

theorem executedValues (serial : List (Text × Value f) → Text) (follows : Follows stored d items) :
    (executed serial stored d).schedule = { shown stored.schedule d with finish := writtenFinish stored.schedule d } ∧
      (executed serial stored d).exceptions.map Prod.snd =
        (items.filter fun item => item.origin.isSome).map Item.value ++
          (items.filter fun item => item.origin.isNone && !item.changed).map Item.value := by
  have kept : items.filterMap Item.origin = (items.filterMap keyed).map fun row => (row.1, row.2.1) := by
    rw [List.map_filterMap]
    refine congrArg (List.filterMap · items) (funext fun item => ?_)
    cases origin : item.origin <;> simp [keyed, origin]
  have keys : ((items.filterMap keyed).map Prod.fst).Nodup := by
    have nodup := originKeys follows
    rw [kept, List.map_map] at nodup
    exact nodup
  obtain ⟨new, inserted, values⟩ := insertRun serial
    ((items.filter fun item => item.origin.isNone && !item.changed).map Item.value)
    ⟨{ shown stored.schedule d with finish := writtenFinish stored.schedule d },
      (items.filterMap keyed).map fun row => (row.1, row.2.2.getD row.2.1)⟩
  have run : executed serial stored d = ⟨{ shown stored.schedule d with finish := writtenFinish stored.schedule d },
      ((items.filterMap keyed).map fun row => (row.1, row.2.2.getD row.2.1)) ++ new⟩ := by
    have all := @KeyedTable.setEach _ _ _ (items.filterMap keyed) [] (by simpa using keys)
    rw [List.nil_append, List.nil_append, ← kept] at all
    rw [executed, statements, List.foldl_append, List.foldl_append, List.foldl_append, scheduleRun, deleteRun,
      updatesOf follows, updateRun, insertsOf follows, varsAssigned, follows.kept, all]
    rw [List.map_map] at inserted
    exact inserted
  rw [run]
  refine ⟨rfl, ?_⟩
  rw [List.map_append, values]
  refine congrArg (· ++ _) ?_
  have unchanged := follows.unchanged
  clear inserted values run keys kept follows
  induction items with
  | nil => rfl
  | cons item items ih =>
    obtain ⟨here, later⟩ := List.forall_mem_cons.mp unchanged
    have rest := ih later
    obtain ⟨origin, value, changed⟩ := item
    cases origin with
    | none => simpa [keyed] using rest
    | some e =>
      have own : (if changed then some value else none).getD e.2 = value := by
        cases changed with
        | true => rfl
        | false => exact (here rfl e rfl).symm
      simpa [keyed, own] using rest

theorem permKept (items : List (Item f)) :
    ((items.filter fun item => item.origin.isSome).map Item.value ++
      (items.filter fun item => item.origin.isNone && !item.changed).map Item.value).Perm (items.map Item.value) ↔
      ∀ item ∈ items, item.origin = none → item.changed = false := by
  have parts := List.filter_append_perm (fun item : Item f => item.origin.isSome) items
  have fresh : (items.filter fun item => item.origin.isNone && !item.changed) =
      (items.filter fun item => !item.origin.isSome).filter fun item => !item.changed := by
    rw [List.filter_filter]
    refine List.filter_congr fun item _ => ?_
    cases item.origin <;> cases item.changed <;> rfl
  rw [fresh, ← List.map_append]
  constructor
  · intro perm item member added
    have sizes := perm.length_eq
    rw [List.length_map, List.length_map, ← parts.length_eq, List.length_append, List.length_append,
      Nat.add_left_cancel_iff, List.length_filter_eq_length_iff] at sizes
    simpa using sizes item (List.mem_filter.mpr ⟨member, by rw [added]; rfl⟩)
  · intro fine
    have all : ((items.filter fun item => !item.origin.isSome).filter fun item => !item.changed) =
        items.filter fun item => !item.origin.isSome := by
      refine List.filter_eq_self.mpr fun item inside => ?_
      obtain ⟨member, added⟩ := List.mem_filter.mp inside
      rw [fine item member (by simpa using added)]
      rfl
    rw [all]
    exact parts.map _

theorem memUpdates (follows : Follows stored d items) (s : Statement f) : s ∈ updates f d.lstExceptions ↔
    ∃ item ∈ items, item.changed = true ∧ ∃ e ∈ item.origin, s = .update e.1 item.value := by
  rw [updatesOf follows, List.filterMap_filterMap, List.mem_map]
  constructor
  · rintro ⟨change, inside, rfl⟩
    obtain ⟨item, member, here⟩ := List.mem_filterMap.mp inside
    obtain ⟨origin, value, changed⟩ := item
    cases origin with
    | none => cases here
    | some e =>
      cases changed with
      | false => cases here
      | true =>
        cases here
        exact ⟨_, member, rfl, e, rfl, rfl⟩
  · rintro ⟨item, member, changed, e, origin, rfl⟩
    refine ⟨(e.1, item.value), List.mem_filterMap.mpr ⟨item, member, ?_⟩, rfl⟩
    simp [keyed, Option.mem_def.mp origin, changed]

theorem setSame (stored : Stored f) {e : Text × Value f} (inside : e ∈ stored.exceptions) (value : Value f) :
    set e.1 value stored.exceptions = stored.exceptions ↔ value = e.2 := by
  obtain ⟨before, after, split⟩ := List.append_of_mem inside
  have keys := stored.keys
  rw [split] at keys ⊢
  rw [KeyedTable.setHere keys, List.append_cancel_left_eq, List.cons.injEq]
  exact ⟨fun same => congrArg Prod.snd same.1, fun same => ⟨congrArg (Prod.mk e.1) same, rfl⟩⟩

theorem writesChanges (follows : Follows stored d items) :
    (∀ s ∈ statements stored.schedule d, s.Writes stored) ↔
      ∀ item ∈ items, item.changed = true → ∀ e ∈ item.origin, item.value ≠ e.2 := by
  constructor
  · intro writes item member changed e origin same
    have inside := (memUpdates follows _).mpr ⟨item, member, changed, e, origin, rfl⟩
    have written := writes (.update e.1 item.value)
      (List.mem_append_left _ (List.mem_append_right _ inside))
    exact written ((setSame stored (originStored follows member origin) item.value).mpr same)
  · intro differs s member
    rw [statements, List.mem_append, List.mem_append, List.mem_append] at member
    rcases member with ((schedule | delete) | update) | insert
    · obtain ⟨-, rfl⟩ := memWhen schedule
      exact varsWrite stored.schedule d
    · obtain ⟨id, gone, rfl⟩ := List.mem_map.mp delete
      obtain ⟨e, inside, rfl⟩ := List.mem_map.mp (follows.gone id gone)
      exact fun same => of_decide_eq_true (List.filter_eq_self.mp same e inside) rfl
    · obtain ⟨item, inside, changed, e, origin, rfl⟩ := (memUpdates follows s).mp update
      exact fun same => differs item inside changed e origin
        ((setSame stored (originStored follows inside origin) item.value).mp same)
    · rw [insertsOf follows] at insert
      obtain ⟨item, -, rfl⟩ := List.mem_map.mp insert
      trivial

theorem rowValues {cells : List Row} (rows : List.Forall₂ RowOf cells items) :
    cells.map (Row.value f) = items.map Item.value := by
  induction rows with
  | nil => rfl
  | cons of rest ih => rw [List.map_cons, List.map_cons, of.value, ih]

/- The stored schedule is as in the dialog, and nothing is written without need, just where a new end has no time of
day and every exception of the list that was ever changed is a stored one with another value. -/
theorem scheduleSaved (f : Formats) (inverse : f.Inverse) (serial : List (Text × Value f) → Text) (stored : Stored f)
    (edits : List (Edit f)) :
    Saved serial stored (session stored edits).1 ↔
      (stored.schedule.finish = none → ∀ cal, (session stored edits).1.calEnd = some cal →
        (session stored edits).1.timEnd = f.midnight) ∧
      ∀ item ∈ (session stored edits).2, item.changed = true → ∃ e ∈ item.origin, item.value ≠ e.2 := by
  have follows := sessionFollows inverse stored edits
  generalize session stored edits = run at follows ⊢
  obtain ⟨d, items⟩ := run
  obtain ⟨schedule, exceptions⟩ := executedValues serial follows
  have shownValues : d.lstExceptions.map (Row.value f) = items.map Item.value := rowValues follows.rows
  have items_ : (∀ item ∈ items, item.changed = true → ∃ e ∈ item.origin, item.value ≠ e.2) ↔
      (∀ item ∈ items, item.origin = none → item.changed = false) ∧
        ∀ item ∈ items, item.changed = true → ∀ e ∈ item.origin, item.value ≠ e.2 := by
    rw [← forall₂_and]
    refine forall₂_congr fun item _ => ?_
    obtain ⟨origin, value, changed⟩ := item
    cases origin <;> cases changed <;> simp
  have parts : Saved serial stored d ↔ (executed serial stored d).schedule = shown stored.schedule d ∧
      ((executed serial stored d).exceptions.map Prod.snd).Perm (d.lstExceptions.map (Row.value f)) ∧
      ∀ s ∈ statements stored.schedule d, s.Writes stored :=
    ⟨fun saved => ⟨saved.1, saved.2, saved.3⟩, fun saved => ⟨saved.1, saved.2.1, saved.2.2⟩⟩
  rw [parts, schedule, finishShown, exceptions, shownValues, permKept, writesChanges follows, items_]

end Exceptions

section Examples

def strokes (n : ℕ) : Text := List.replicate (n + 1) '/'

def stroked : Formats where
  Date := ℕ
  Time := ℕ
  decDate := inferInstanceAs (DecidableEq ℕ)
  decTime := inferInstanceAs (DecidableEq ℕ)
  midnight := 0
  FormatDate := strokes
  FormatISODate := strokes
  ParseDate text := text.length - 1
  ParseFormat text := text.length - 1
  FormatTime := strokes
  Format := strokes
  FormatISOTime := strokes
  ParseTime text := text.length - 1

theorem strokedInverse : stroked.Inverse := by
  have back (n : ℕ) : (strokes n).length - 1 = n := by simp [strokes]
  have other (n : ℕ) : strokes n ≠ any := fun same => by
    rw [strokes, List.replicate_succ] at same
    exact absurd (List.cons_eq_cons.mp same).1 (by decide)
  have plain (n : ℕ) : strokes n ≠ [] ∧ '|' ∉ strokes n := by simp [strokes]
  exact ⟨back, back, back, back, back, other, fun n => ⟨other n, other n⟩, plain, plain⟩

def nightly : Stored stroked where
  schedule := ⟨"nightly".toList, [], true, ((1 : ℕ), (0 : ℕ)), none, fun list => List.replicate list.count false⟩
  exceptions := [("7".toList, (some (5 : ℕ), none))]
  keys := by simp
  numbers := by simp
  given := by simp

def noSerial : List (Text × Value stroked) → Text := fun _ => "8".toList

theorem changedSaved :
    Saved noSerial nightly (session nightly [.change 0 (some (6 : ℕ)) (3600 : ℕ), .comment "x".toList]).1 := by
  refine (scheduleSaved stroked strokedInverse noSerial nightly _).mpr
    ⟨fun _ cal none => (by cases none), fun item member _ => ?_⟩
  have items : (session nightly [.change 0 (some (6 : ℕ)) (3600 : ℕ), .comment "x".toList]).2 =
      [⟨some ("7".toList, (some (5 : ℕ), none)), (some (6 : ℕ), some (3600 : ℕ)), true⟩] := rfl
  rw [items] at member
  cases List.mem_singleton.mp member
  exact ⟨_, rfl, fun same => absurd (Option.some.inj (congrArg Prod.fst same)) (show ¬(6 : ℕ) = 5 by decide)⟩

/- An exception that is added and then changed is not stored. -/
theorem addedChangedLost :
    ¬Saved noSerial nightly (session nightly [.add (some (6 : ℕ)) (0 : ℕ), .change 1 (some (7 : ℕ)) (0 : ℕ)]).1 :=
  fun saved => absurd saved.exceptions.length_eq (by decide)

end Examples

end PgAdmin.dlgSchedule
