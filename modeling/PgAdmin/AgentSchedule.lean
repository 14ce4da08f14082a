import PgAdmin.CommaSeparatedList
import PgAdmin.KeyedTable
import PgAdmin.SqlLiteral

/-! The dialog for a schedule of a pgAgent job: loading, editing, and the statements for what was edited. -/
namespace PgAdmin.dlgSchedule
open PgsObjects (Text)
open misc (listed trimBoth)
open KeyedTable (set drop)

/- How dates and times are written and read. A time is that of a day. -/
structure Formats where
  Date : Type
  Time : Type
  decDate : DecidableEq Date
  decTime : DecidableEq Time
  midnight : Time
  FormatDate : Date → Text
  FormatISODate : Date → Text
  ParseDate : Text → Date
  ParseFormat : Text → Date
  FormatTime : Time → Text
  Format : Time → Text
  FormatISOTime : Time → Text
  ParseTime : Text → Time

/- `<any>` -/
def any : Text := "<any>".toList

/- Formatting and parsing are inverse to each other. -/
structure Formats.Inverse (f : Formats) : Prop where
  isoDate : ∀ d, f.ParseDate (f.FormatISODate d) = d
  date : ∀ d, f.ParseFormat (f.FormatDate d) = d
  isoTime : ∀ t, f.ParseTime (f.FormatISOTime t) = t
  time : ∀ t, f.ParseTime (f.FormatTime t) = t
  span : ∀ t, f.ParseTime (f.Format t) = t
  dateNotAny : ∀ d, f.FormatDate d ≠ any
  timeNotAny : ∀ t, f.FormatTime t ≠ any ∧ f.Format t ≠ any
  plainDate : ∀ d, f.FormatISODate d ≠ [] ∧ '|' ∉ f.FormatISODate d
  plainTime : ∀ t, f.FormatISOTime t ≠ [] ∧ '|' ∉ f.FormatISOTime t

inductive CheckList where
  | minutes
  | hours
  | weekdays
  | monthdays
  | months
  deriving DecidableEq

/- GetCount() -/
def CheckList.count : CheckList → ℕ
  | minutes => 60
  | hours => 24
  | weekdays => 7
  | monthdays => 32
  | months => 12

def CheckList.column : CheckList → Text
  | minutes => "jscminutes".toList
  | hours => "jschours".toList
  | weekdays => "jscweekdays".toList
  | monthdays => "jscmonthdays".toList
  | months => "jscmonths".toList

section Dialog
variable (f : Formats)

abbrev Value := Option f.Date × Option f.Time

structure Schedule where
  name : Text
  comment : Text
  enabled : Bool
  start : f.Date × f.Time
  finish : Option (f.Date × f.Time)
  lists : CheckList → List Bool

/- A schedule with its exceptions by jexid. Each has a date or a time. -/
structure Stored where
  schedule : Schedule f
  exceptions : List (Text × Value f)
  keys : (exceptions.map Prod.fst).Nodup
  numbers : ∀ e ∈ exceptions, e.1 ≠ [] ∧ '|' ∉ e.1
  given : ∀ e ∈ exceptions, e.2 ≠ (none, none)

/- A row of lstExceptions: the date, the time, and the hidden columns. -/
structure Row where
  date : Text
  time : Text
  dirty : Text
  id : Text

structure Dialog where
  txtName : Text
  txtComment : Text
  chkEnabled : Bool
  calStart : f.Date
  timStart : f.Time
  calEnd : Option f.Date
  timEnd : f.Time
  lists : CheckList → List Bool
  lstExceptions : List Row
  deleteExceptions : List Text

end Dialog

def BoolToStr (value : Bool) : Text := if value then "true".toList else "false".toList

section Loading
variable {f : Formats}

def exceptionsText (exceptions : List (Text × Value f)) : Text :=
  exceptions.flatMap fun e =>
    e.1 ++ "|".toList ++ (e.2.1.map f.FormatISODate).getD [] ++ "|".toList ++
      (e.2.2.map f.FormatISOTime).getD [] ++ "|".toList

/- wxStringTokenizer with a bar: the rest holds another token, the next one, and what is behind it. -/
def HasMoreTokens (start : Bool) (rest : Text) : Bool := rest.any (· ≠ '|') || start && rest ≠ []

def token (rest : Text) : Text := wxString.BeforeFirst rest '|'

def behind (rest : Text) : Text := wxString.AfterFirst rest '|'

def nextToken (rest : Text) : Text × Text := if HasMoreTokens false rest then (token rest, behind rest) else ([], rest)

def loadRow (f : Formats) (dateToken timeToken : Text) : Option Row :=
  if dateToken ≠ [] ∧ timeToken ≠ [] then
    some ⟨f.FormatDate (f.ParseDate dateToken), f.FormatTime (f.ParseTime timeToken), [], []⟩
  else if dateToken ≠ [] then some ⟨f.FormatDate (f.ParseDate dateToken), any, [], []⟩
  else if timeToken ≠ [] then some ⟨any, f.FormatTime (f.ParseTime timeToken), [], []⟩
  else none

def loadExceptions (f : Formats) : ℕ → Bool → Text → ℕ → List Row → List Row
  | 0, _, _, _, rows => rows
  | fuel + 1, start, rest, pos, rows =>
    if HasMoreTokens start rest then
      let id := token rest
      let (dateToken, rest) := nextToken (behind rest)
      let (timeToken, rest) := nextToken rest
      let (pos, rows) := match loadRow f dateToken timeToken with
        | some row => (rows.length, rows ++ [row])
        | none => (pos, rows)
      loadExceptions f fuel false rest pos
        (rows.modify pos fun row => { row with dirty := BoolToStr false, id := id })
    else rows

def checked (count : ℕ) (bits : List Bool) : List Bool := (List.range count).map fun x => (bits[x]?).getD false

/- dlgSchedule::Go() -/
def Go (schedule : Schedule f) (exceptions : Text) : Dialog f where
  txtName := schedule.name
  txtComment := schedule.comment
  chkEnabled := schedule.enabled
  calStart := schedule.start.1
  timStart := schedule.start.2
  calEnd := schedule.finish.map Prod.fst
  timEnd := (schedule.finish.map Prod.snd).getD f.midnight
  lists list := checked list.count (schedule.lists list)
  lstExceptions := loadExceptions f exceptions.length true exceptions 0 []
  deleteExceptions := []

end Loading

section Editing
variable {f : Formats}
local instance : DecidableEq f.Date := f.decDate
local instance : DecidableEq f.Time := f.decTime

def conflict (exDate exTime : Text) (row : Row) : Option Text :=
  if row.date = exDate ∧ row.time = exTime then some "The specified exception already exists!".toList
  else if row.date = exDate ∧ row.time = any then
    some "An exception already exists for any time on this date!".toList
  else if row.time = exTime ∧ row.date = any then
    some "An exception already exists for this time on any date!".toList
  else none

def exDate (calException : Option f.Date) : Text := (calException.map f.FormatDate).getD any

def exTime (timException : f.Time) : Text := if timException = f.midnight then any else f.Format timException

def refused (calException : Option f.Date) (timException : f.Time) (others : List Row) : Option Text :=
  if calException = none ∧ timException = f.midnight then some "You must enter a valid date and/or time!".toList
  else others.findSome? (conflict (exDate calException) (exTime timException))

inductive Edit (f : Formats) where
  | name (value : Text)
  | comment (value : Text)
  | enabled (value : Bool)
  | start (cal : f.Date) (tim : f.Time)
  | finish (cal : Option f.Date) (tim : f.Time)
  | check (list : CheckList) (box : ℕ)
  | add (calException : Option f.Date) (timException : f.Time)
  | change (item : ℕ) (calException : Option f.Date) (timException : f.Time)
  | remove (item : ℕ)

def OnAddException (d : Dialog f) (calException : Option f.Date) (timException : f.Time) : Dialog f :=
  if (refused calException timException d.lstExceptions).isSome then d
  else { d with lstExceptions := d.lstExceptions ++ [⟨exDate calException, exTime timException, [], []⟩] }

def OnChangeException (d : Dialog f) (item : ℕ) (calException : Option f.Date) (timException : f.Time) : Dialog f :=
  if (refused calException timException (d.lstExceptions.eraseIdx item)).isSome then d
  else { d with lstExceptions := d.lstExceptions.modify item fun row =>
    { row with date := exDate calException, time := exTime timException, dirty := BoolToStr true } }

def OnRemoveException (d : Dialog f) (item : ℕ) : Dialog f :=
  let id := (d.lstExceptions[item]?.map Row.id).getD []
  { d with
    deleteExceptions := if id ≠ [] then d.deleteExceptions ++ [id] else d.deleteExceptions
    lstExceptions := d.lstExceptions.eraseIdx item }

def edit (d : Dialog f) : Edit f → Dialog f
  | .name value => { d with txtName := value }
  | .comment value => { d with txtComment := value }
  | .enabled value => { d with chkEnabled := value }
  | .start cal tim => { d with calStart := cal, timStart := tim }
  | .finish cal tim => { d with calEnd := cal, timEnd := tim }
  | .check list box => { d with lists := Function.update d.lists list ((d.lists list).modify box not) }
  | .add cal tim => OnAddException d cal tim
  | .change item cal tim => OnChangeException d item cal tim
  | .remove item => OnRemoveException d item

end Editing

section Statements
variable {f : Formats}
local instance : DecidableEq f.Date := f.decDate
local instance : DecidableEq f.Time := f.decTime

inductive Assignment (f : Formats) where
  | name (value : Text)
  | comment (value : Text)
  | enabled (value : Bool)
  | start (value : f.Date × f.Time)
  | finish (value : Option (f.Date × f.Time))
  | list (list : CheckList) (bits : List Bool)

inductive Statement (f : Formats) where
  | schedule (vars : List (Assignment f))
  | delete (id : Text)
  | update (id : Text) (value : Value f)
  | insert (value : Value f)

def DateToAnsiStr (value : f.Date × f.Time) : Text :=
  f.FormatISODate value.1 ++ " ".toList ++ f.FormatISOTime value.2

def ChkListBox2PgArray (bits : List Bool) : Text :=
  "\x7b".toList ++ listed ",".toList (bits.map fun checked => if checked then ['t'] else ['f']) ++ "\x7d".toList

def ChkListBox2StrArray (bits : List Bool) : Text := bits.map fun checked => if checked then 't' else 'f'

def Assignment.text (qtDbString : Text → Text) : Assignment f → Text
  | .name value => "jscname = ".toList ++ qtDbString value
  | .comment value => "jscdesc = ".toList ++ qtDbString value
  | .enabled value => "jscenabled = ".toList ++ BoolToStr value
  | .start value => "jscstart = '".toList ++ DateToAnsiStr value ++ "'".toList
  | .finish (some value) => "jscend = '".toList ++ DateToAnsiStr value ++ "'".toList
  | .finish none => "jscend = NULL".toList
  | .list boxes bits => boxes.column ++ " = '".toList ++ ChkListBox2PgArray bits ++ "'".toList

def dateText (date : Option f.Date) : Text :=
  (date.map fun date => "'".toList ++ f.FormatISODate date ++ "'".toList).getD "null".toList

def timeText (time : Option f.Time) : Text :=
  (time.map fun time => "'".toList ++ f.FormatISOTime time ++ "'".toList).getD "null".toList

def Statement.text (qtDbString : Text → Text) (recId : Text) : Statement f → Text
  | .schedule vars => "UPDATE pgagent.pga_schedule SET ".toList ++
      listed ", ".toList (vars.map (Assignment.text qtDbString)) ++ "\n WHERE jscid=".toList ++ recId ++ ";\n".toList
  | .delete id => "DELETE FROM pgagent.pga_exception\n  WHERE jexid = ".toList ++ id ++ ";\n".toList
  | .update id value => "UPDATE pgagent.pga_exception SET jexdate = ".toList ++ dateText value.1 ++
      ", jextime = ".toList ++ timeText value.2 ++ "\n  WHERE jexid = ".toList ++ id ++ ";\n".toList
  | .insert value => "INSERT INTO pgagent.pga_exception (jexscid, jexdate, jextime)\n  VALUES (".toList ++ recId ++
      ", ".toList ++ dateText value.1 ++ ", ".toList ++ timeText value.2 ++ ");\n".toList

def GetName (schedule : Schedule f) (d : Dialog f) : Text :=
  if schedule.name = d.txtName then d.txtName else trimBoth d.txtName

section Vars
variable (schedule : Schedule f) (d : Dialog f)

def nameVars : List (Assignment f) :=
  if GetName schedule d ≠ schedule.name then [.name (GetName schedule d)] else []

def commentVars : List (Assignment f) := if d.txtComment ≠ schedule.comment then [.comment d.txtComment] else []

def enabledVars : List (Assignment f) := if d.chkEnabled ≠ schedule.enabled then [.enabled d.chkEnabled] else []

def startVars : List (Assignment f) :=
  if (d.calStart, d.timStart) ≠ schedule.start then [.start (d.calStart, d.timStart)] else []

def finishVars : List (Assignment f) :=
  match d.calEnd, schedule.finish with
  | some cal, some finish => if (cal, d.timEnd) ≠ finish then [.finish (some (cal, d.timEnd))] else []
  | some cal, none => [.finish (some (cal, f.midnight))]
  | none, some _ => [.finish none]
  | none, none => []

def listVars (list : CheckList) : List (Assignment f) :=
  if ChkListBox2StrArray (d.lists list) ≠ ChkListBox2StrArray (schedule.lists list) then [.list list (d.lists list)]
  else []

def vars : List (Assignment f) :=
  nameVars schedule d ++ commentVars schedule d ++ enabledVars schedule d ++ startVars schedule d ++
    finishVars schedule d ++ [.minutes, .hours, .weekdays, .monthdays, .months].flatMap (listVars schedule d)

end Vars

def Row.value (f : Formats) (row : Row) : Value f :=
  (if row.date = any then none else some (f.ParseFormat row.date),
    if row.time = any then none else some (f.ParseTime row.time))

def updates (f : Formats) (rows : List Row) : List (Statement f) :=
  rows.filterMap fun row =>
    if row.dirty = BoolToStr true ∧ row.id ≠ [] then some (.update row.id (row.value f)) else none

def inserts (f : Formats) (rows : List Row) : List (Statement f) :=
  rows.filterMap fun row => if row.dirty = [] ∧ row.id = [] then some (.insert (row.value f)) else none

def statements (schedule : Schedule f) (d : Dialog f) : List (Statement f) :=
  (if vars schedule d ≠ [] then [.schedule (vars schedule d)] else []) ++
  d.deleteExceptions.map .delete ++ updates f d.lstExceptions ++ inserts f d.lstExceptions

def GetUpdateSql (qtDbString : Text → Text) (recId : Text) (schedule : Schedule f) (d : Dialog f) : Text :=
  (statements schedule d).flatMap (Statement.text qtDbString recId)

end Statements

section Executing
variable {f : Formats}

structure Database (f : Formats) where
  schedule : Schedule f
  exceptions : List (Text × Value f)

def Assignment.assign (schedule : Schedule f) : Assignment f → Schedule f
  | .name value => { schedule with name := value }
  | .comment value => { schedule with comment := value }
  | .enabled value => { schedule with enabled := value }
  | .start value => { schedule with start := value }
  | .finish value => { schedule with finish := value }
  | .list boxes bits => { schedule with lists := Function.update schedule.lists boxes bits }

def Statement.execute (serial : List (Text × Value f) → Text) (db : Database f) : Statement f → Database f
  | .schedule vars => { db with schedule := vars.foldl Assignment.assign db.schedule }
  | .delete id => { db with exceptions := drop id db.exceptions }
  | .update id value => { db with exceptions := set id value db.exceptions }
  | .insert value => { db with exceptions := db.exceptions ++ [(serial db.exceptions, value)] }

end Executing

end PgAdmin.dlgSchedule
