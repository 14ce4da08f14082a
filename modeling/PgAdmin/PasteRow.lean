import Mathlib.Algebra.BigOperators.Group.List.Basic
import PgAdmin.WxString

/-! A row of the grid copied to the clipboard and pasted again. The cells are written in quotes with nothing escaped,
and a quote ends a cell when the separator or a line break comes next. -/
namespace PgAdmin.ctlSQLGrid
open PgsObjects (Text)

inductive CopyQuoting where
  | none
  | strings
  | all
  deriving DecidableEq, Repr

/- Both texts come from fields of one line. -/
structure CopySettings where
  quoting : CopyQuoting
  quoteChar : Text
  colSep : Text
  quoteSome : quoteChar ≠ []
  sepSome : colSep ≠ []
  oneLine : ∀ c ∈ quoteChar ++ colSep, c ≠ '\n' ∧ c ≠ '\r'

structure Cell where
  text : Text
  isText : Bool
  deriving DecidableEq, Repr

variable (settings : CopySettings)

def needQuote (cell : Cell) : Bool :=
  match settings.quoting with
  | .none => false
  | .strings => cell.isText
  | .all => true

def exportCell (cell : Cell) : Text :=
  if needQuote settings cell then settings.quoteChar ++ cell.text ++ settings.quoteChar else cell.text

def GetExportLine : List Cell → Text
  | [] => []
  | cell :: cells => exportCell settings cell ++ cells.flatMap fun next => settings.colSep ++ exportCell settings next

def ends (c : Char) : Bool := [c] = settings.colSep || c = '\r' || c = '\n'

def finish (inQuotes : Bool) (cur : Text) : List Text :=
  if cur = [] then []
  else if inQuotes ∧ cur.getLast?.toList = settings.quoteChar then [cur.dropLast]
  else [cur]

/- The loop of sqlTable::Paste, with the text between start and pos. -/
def parse (inQuotes inData : Bool) (cur : Text) : Text → List Text
  | [] => finish settings inQuotes cur
  | c :: rest =>
    if c = '\n' ∧ inQuotes = false then finish settings inQuotes cur
    else if inData = false ∧ [c] = settings.quoteChar then parse true true [] rest
    else
      let inQuotes := inQuotes && inData
      if inQuotes ∧ [c] = settings.quoteChar ∧ rest.head?.any (ends settings) then
        cur :: parse inQuotes false [] (rest.drop 1)
      else if inQuotes = false ∧ [c] = settings.colSep then cur :: parse inQuotes false [] rest
      else parse inQuotes true (cur ++ [c]) rest
termination_by text => text.length
decreasing_by all_goals simp

def Paste (text : Text) : List Text := parse settings false false [] text

def Free (q : Char) (cell : Text) : Prop :=
  ∀ before c after, cell ++ [q] = before ++ q :: c :: after → ends settings c = false

variable {settings} {q c : Char} {cur cell rest : Text}

theorem parseEnd (single : settings.quoteChar = [q]) (closes : ends settings c = true) :
    parse settings true true cur (q :: c :: rest) = cur :: parse settings true false [] rest := by
  rw [parse]
  simp [single, closes]

theorem parseStays (single : settings.quoteChar = [q])
    (stays : ¬ (c = q ∧ rest.head?.any (ends settings) = true)) :
    parse settings true true cur (c :: rest) = parse settings true true (cur ++ [c]) rest := by
  rw [parse]
  simp only [Bool.true_eq_false, and_false, if_false, false_and, Bool.and_self, true_and, single, List.cons.injEq,
    and_true]
  rw [if_neg stays]

theorem parseOpens (single : settings.quoteChar = [q]) (inQuotes : Bool) :
    parse settings inQuotes false [] (q :: rest) = parse settings true true [] rest := by
  have line := (settings.oneLine q (by simp [single])).1
  rw [parse]
  simp [single, line]

theorem parseFree (single : settings.quoteChar = [q]) (free : Free settings q cell) :
    parse settings true true cur (cell ++ q :: rest) = parse settings true true (cur ++ cell) (q :: rest) := by
  induction cell generalizing cur with
  | nil => simp
  | cons c cell ih =>
    have later : Free settings q cell := fun before x after same =>
      free (c :: before) x after (congrArg (c :: ·) same)
    rw [List.cons_append, parseStays single, ih later, List.append_assoc]
    · rfl
    · rintro ⟨rfl, next⟩
      cases cell with
      | nil => exact absurd (free [] c [] rfl) (by simpa using next)
      | cons x cell => exact absurd (free [] x (cell ++ [c]) rfl) (by simpa using next)

theorem parseHead (single : settings.quoteChar = [q]) {t : Text} (some_ : t ≠ []) :
    ∃ first others, parse settings true true cur t = first :: others ∧ cur.length ≤ first.length := by
  induction t generalizing cur with
  | nil => exact absurd rfl some_
  | cons c t ih =>
    by_cases here : c = q ∧ t.head?.any (ends settings) = true
    · obtain ⟨rfl, next⟩ := here
      cases t with
      | nil => simp at next
      | cons x t => exact ⟨cur, _, parseEnd single (by simpa using next), le_rfl⟩
    · rw [parseStays single here]
      cases t with
      | nil =>
        rw [parse, finish, if_neg (by simp)]
        split
        · exact ⟨_, _, rfl, by simp⟩
        · exact ⟨_, _, rfl, by simp⟩
      | cons x t =>
        obtain ⟨first, others, shape, long⟩ := @ih (cur ++ [c]) (List.cons_ne_nil x t)
        exact ⟨first, others, shape, by simp at long; omega⟩

theorem parseCut (single : settings.quoteChar = [q]) (cut : ¬ Free settings q cell) (rest : Text) :
    ∃ first others, parse settings true true cur (cell ++ q :: rest) = first :: others ∧
      first.length < cur.length + cell.length := by
  induction cell generalizing cur with
  | nil =>
    refine absurd (fun before c after same => ?_) cut
    have long := congrArg List.length same
    simp at long
    omega
  | cons c cell ih =>
    by_cases here : c = q ∧ (cell ++ q :: rest).head?.any (ends settings) = true
    · obtain ⟨rfl, next⟩ := here
      obtain ⟨x, t, shape⟩ := List.exists_cons_of_ne_nil (show cell ++ c :: rest ≠ [] by simp)
      rw [List.cons_append, shape]
      rw [shape] at next
      exact ⟨cur, _, parseEnd single (by simpa using next), by simp⟩
    · have later : ¬ Free settings q cell := by
        intro free
        refine cut fun before x after same => ?_
        cases before with
        | nil =>
          obtain ⟨rfl, behind⟩ := List.cons.inj same
          have head : (cell ++ c :: rest).head? = some x := by
            cases cell with
            | nil =>
              obtain ⟨rfl, -⟩ := List.cons.inj behind
              rfl
            | cons l cell => rw [← (List.cons.inj behind).1]; rfl
          by_contra closes
          exact here ⟨rfl, by rw [head]; simpa using closes⟩
        | cons l before => exact free before x after (List.cons.inj same).2
      obtain ⟨first, others, shape, short⟩ := @ih (cur ++ [c]) later
      rw [List.cons_append, parseStays single here, shape]
      exact ⟨first, others, rfl, by simp at short ⊢; omega⟩

def tailText (sep : Text) (q : Char) (cells : List Text) : Text :=
  cells.flatMap fun cell => sep ++ q :: cell ++ [q]

theorem sepEnds {s : Char} (sep : settings.colSep = [s]) : ends settings s = true := by
  simp [ends, sep]

theorem lastRead (single : settings.quoteChar = [q]) (cell : Text) :
    parse settings true true [] (cell ++ [q]) = [cell] ↔ Free settings q cell := by
  by_cases free : Free settings q cell
  · refine iff_of_true ?_ free
    rw [parseFree single free, parseStays single (by simp), parse, finish]
    simp [single]
  · refine iff_of_false ?_ free
    obtain ⟨first, others, shape, short⟩ := @parseCut settings q [] cell single free []
    rw [shape]
    rintro same
    obtain rfl := (List.cons.inj same).1
    simp at short

theorem rowRead (single : settings.quoteChar = [q]) {s : Char} (sep : settings.colSep = [s]) (cell : Text)
    (cells : List Text) : parse settings true true [] (cell ++ q :: tailText [s] q cells) = cell :: cells ↔
      ∀ x ∈ cell :: cells, Free settings q x := by
  induction cells generalizing cell with
  | nil =>
    rw [List.forall_mem_singleton]
    exact lastRead single cell
  | cons next cells ih =>
    rw [List.forall_mem_cons]
    by_cases free : Free settings q cell
    · have text : tailText [s] q (next :: cells) = s :: (q :: (next ++ q :: tailText [s] q cells)) := by
        simp [tailText]
      rw [text, parseFree single free, parseEnd single (sepEnds sep), parseOpens single, List.nil_append,
        List.cons.injEq, and_iff_right rfl, and_iff_right free]
      exact ih next
    · refine iff_of_false ?_ fun all => free all.1
      obtain ⟨first, others, shape, short⟩ := @parseCut settings q [] cell single free (tailText [s] q (next :: cells))
      rw [shape]
      rintro same
      obtain rfl := (List.cons.inj same).1
      simp at short

theorem rowLong (single : settings.quoteChar = [q]) (long : settings.colSep.length ≠ 1) (cell next : Text)
    (cells : List Text) :
    parse settings true true [] (cell ++ q :: tailText settings.colSep q (next :: cells)) ≠ cell :: next :: cells := by
  intro same
  by_cases free : Free settings q cell
  · obtain ⟨s, sep, shape⟩ := List.exists_cons_of_ne_nil settings.sepSome
    have line := settings.oneLine s (by simp [shape])
    have open_ : ends settings s = false := by
      rw [shape] at long
      have more : sep ≠ [] := by
        rintro rfl
        exact long rfl
      simp [ends, shape, line.1, line.2, more]
    have text : tailText settings.colSep q (next :: cells) =
        s :: (sep ++ q :: next ++ [q] ++ tailText settings.colSep q cells) := by
      rw [tailText, List.flatMap_cons, ← tailText, shape]
      simp
    rw [text, parseFree single free, parseStays single (by simp [open_])] at same
    obtain ⟨first, others, head, bound⟩ := @parseHead settings q ([] ++ cell ++ [q]) single
      (s :: (sep ++ q :: next ++ [q] ++ tailText settings.colSep q cells)) (List.cons_ne_nil _ _)
    rw [head] at same
    obtain rfl := (List.cons.inj same).1
    simp at bound
  · obtain ⟨first, others, shape, short⟩ := @parseCut settings q [] cell single free
      (tailText settings.colSep q (next :: cells))
    rw [shape] at same
    obtain rfl := (List.cons.inj same).1
    simp at short

theorem parseBare (multi : settings.quoteChar.length ≠ 1) {t : Text} (inData : Bool) (line : '\n' ∉ cur) :
    (∀ field ∈ parse settings false inData cur t, '\n' ∉ field) ∧
      ('\n' ∉ t → cur.length + t.length ≤ ((parse settings false inData cur t).map List.length).sum +
        (parse settings false inData cur t).length) := by
  have unquoted (c : Char) : [c] ≠ settings.quoteChar := by
    intro same
    rw [← same] at multi
    exact multi rfl
  have last {cur : Text} (line : '\n' ∉ cur) : (∀ field ∈ finish settings false cur, '\n' ∉ field) ∧
      cur.length ≤ ((finish settings false cur).map List.length).sum + (finish settings false cur).length := by
    rw [finish]
    split
    case isTrue none => simp [none]
    case isFalse => simp [line]
  induction t generalizing cur inData with
  | nil =>
    rw [parse]
    exact ⟨(last line).1, fun _ => (last line).2⟩
  | cons c t ih =>
    rw [parse]
    by_cases stop : c = '\n'
    · rw [if_pos ⟨stop, rfl⟩]
      exact ⟨(last line).1, fun no => absurd (by rw [stop]; exact List.mem_cons_self) no⟩
    · rw [if_neg fun both => stop both.1, if_neg fun both => unquoted c both.2]
      simp only [Bool.false_and, Bool.false_eq_true, false_and, if_false, true_and]
      by_cases sep : [c] = settings.colSep
      · rw [if_pos sep]
        have none : '\n' ∉ ([] : Text) := List.not_mem_nil
        obtain ⟨clean, length⟩ := ih false none
        refine ⟨List.forall_mem_cons.mpr ⟨line, clean⟩, fun no => ?_⟩
        have rest := length fun member => no (List.mem_cons_of_mem c member)
        simp only [List.map_cons, List.sum_cons, List.length_cons, List.length_nil] at rest ⊢
        omega
      · rw [if_neg sep]
        have line' : '\n' ∉ cur ++ [c] := by
          rw [List.mem_append, List.mem_singleton, not_or]
          exact ⟨line, Ne.symm stop⟩
        obtain ⟨clean, length⟩ := ih true line'
        refine ⟨clean, fun no => ?_⟩
        have rest := length fun member => no (List.mem_cons_of_mem c member)
        simp only [List.length_append, List.length_cons, List.length_nil] at rest ⊢
        omega

/- What the settings and the cells have to be for the way back. -/
def Readable (settings : CopySettings) (texts : List Text) : Prop :=
  texts = [] ∨ ∃ q, settings.quoteChar = [q] ∧ (settings.colSep.length = 1 ∨ texts.length = 1) ∧
    ∀ text ∈ texts, Free settings q text

variable {cells : List Cell}

theorem lineQuoted (single : settings.quoteChar = [q]) {cell : Cell}
    (quoted : ∀ x ∈ cell :: cells, needQuote settings x = true) :
    GetExportLine settings (cell :: cells) =
      q :: (cell.text ++ q :: tailText settings.colSep q (cells.map Cell.text)) := by
  obtain ⟨here, later⟩ := List.forall_mem_cons.mp quoted
  have rest : (cells.flatMap fun next => settings.colSep ++ exportCell settings next) =
      tailText settings.colSep q (cells.map Cell.text) := by
    rw [tailText, List.flatMap_map]
    refine List.flatMap_congr fun x member => ?_
    simp [exportCell, later x member, single]
  rw [GetExportLine, rest, exportCell, if_pos here, single]
  simp

theorem lineLength (quoted : ∀ x ∈ cells, needQuote settings x = true) :
    ((cells.map Cell.text).map List.length).sum + 2 * settings.quoteChar.length * cells.length ≤
      (GetExportLine settings cells).length := by
  have one {cell : Cell} (here : needQuote settings cell = true) :
      (exportCell settings cell).length = cell.text.length + 2 * settings.quoteChar.length := by
    rw [exportCell, if_pos here, List.length_append, List.length_append]
    omega
  cases cells with
  | nil => simp [GetExportLine]
  | cons cell cells =>
    obtain ⟨here, later⟩ := List.forall_mem_cons.mp quoted
    have rest : ((cells.map Cell.text).map List.length).sum + 2 * settings.quoteChar.length * cells.length ≤
        (cells.flatMap fun next => settings.colSep ++ exportCell settings next).length := by
      clear quoted
      induction cells with
      | nil => simp
      | cons next cells ih =>
        obtain ⟨first, others⟩ := List.forall_mem_cons.mp later
        have behind := ih others
        have long := one first
        simp only [List.flatMap_cons, List.length_append, List.map_cons, List.sum_cons, List.length_cons, Nat.mul_add,
          Nat.mul_one]
        omega
    have first := one here
    simp only [GetExportLine, List.length_append, List.map_cons, List.sum_cons, List.length_cons, Nat.mul_add,
      Nat.mul_one]
    omega

theorem lineOne (clean : ∀ x ∈ cells, '\n' ∉ x.text) : '\n' ∉ GetExportLine settings cells := by
  have quote : '\n' ∉ settings.quoteChar := fun member =>
    (settings.oneLine '\n' (List.mem_append_left _ member)).1 rfl
  have sep : '\n' ∉ settings.colSep := fun member =>
    (settings.oneLine '\n' (List.mem_append_right _ member)).1 rfl
  have one {cell : Cell} (here : '\n' ∉ cell.text) : '\n' ∉ exportCell settings cell := by
    rw [exportCell]
    split
    · simp [quote, here]
    · exact here
  cases cells with
  | nil => exact List.not_mem_nil
  | cons cell cells =>
    obtain ⟨here, later⟩ := List.forall_mem_cons.mp clean
    rw [GetExportLine, List.mem_append, not_or]
    refine ⟨one here, fun member => ?_⟩
    obtain ⟨next, inside, found⟩ := List.mem_flatMap.mp member
    exact (List.mem_append.mp found).elim sep (one (later next inside))

/-- A row that is copied with all its cells in quotes is pasted as it was exactly when the quote is one letter, the
separator too unless there is one cell, and no cell has the quote before what ends a cell. -/
theorem pasteExact (settings : CopySettings) (cells : List Cell)
    (quoted : ∀ cell ∈ cells, needQuote settings cell = true) :
    Paste settings (GetExportLine settings cells) = cells.map Cell.text ↔
      Readable settings (cells.map Cell.text) := by
  cases cells with
  | nil =>
    refine iff_of_true ?_ (.inl rfl)
    rw [GetExportLine, Paste, parse, finish, if_pos rfl]
    rfl
  | cons cell cells =>
    by_cases multi : settings.quoteChar.length = 1
    · obtain ⟨q, single⟩ := List.length_eq_one_iff.mp multi
      have readable : Readable settings ((cell :: cells).map Cell.text) ↔
          (settings.colSep.length = 1 ∨ cells = []) ∧
            ∀ text ∈ (cell :: cells).map Cell.text, Free settings q text := by
        constructor
        · rintro (none | ⟨q', single', lengths, free⟩)
          · cases none
          · obtain rfl : q' = q := by simpa using single'.symm.trans single
            exact ⟨lengths.imp_right fun one => by simpa using one, free⟩
        · rintro ⟨lengths, free⟩
          exact .inr ⟨q, single, lengths.imp_right fun none => by simp [none], free⟩
      rw [readable, Paste, lineQuoted single quoted, parseOpens single, List.map_cons]
      by_cases sep : settings.colSep.length = 1
      · obtain ⟨s, one⟩ := List.length_eq_one_iff.mp sep
        have row := rowRead single one cell.text (cells.map Cell.text)
        rw [← one] at row
        rw [row]
        simp [sep]
      · cases cells with
        | nil =>
          have last := lastRead single cell.text
          simpa [tailText] using last
        | cons next cells =>
          refine iff_of_false (rowLong single sep cell.text next.text (cells.map Cell.text)) ?_
          rintro ⟨lengths, -⟩
          exact lengths.elim sep (List.cons_ne_nil _ _)
    · refine iff_of_false ?_ ?_
      · intro same
        have none : '\n' ∉ ([] : Text) := List.not_mem_nil
        obtain ⟨clean, length⟩ := @parseBare settings [] multi (GetExportLine settings (cell :: cells)) false none
        rw [← Paste, same] at clean length
        have line := @lineOne settings (cell :: cells) fun x member =>
          clean x.text (List.mem_map_of_mem member)
        have long := lineLength quoted
        have short := length line
        have some_ := List.length_pos_iff.mpr settings.quoteSome
        have twice : 2 * 1 * (cell :: cells).length ≤ 2 * settings.quoteChar.length * (cell :: cells).length :=
          Nat.mul_le_mul_right _ (Nat.mul_le_mul_left 2 some_)
        simp only [List.length_nil, List.length_map, List.length_cons] at short long twice
        omega
      · rintro (none | ⟨q, single, -⟩)
        · cases none
        · exact multi (by rw [single]; rfl)

theorem freeWithout (absent : q ∉ cell) : Free settings q cell := by
  intro before c after same
  refine absurd ?_ absent
  have front := congrArg List.dropLast same
  rw [List.dropLast_concat, List.dropLast_append_cons, List.dropLast_cons_of_ne_nil (List.cons_ne_nil c after)] at front
  rw [front]
  simp

def usual : CopySettings := ⟨.all, ['"'], [';'], by decide, by decide, by simp⟩

theorem rowPasted : Paste usual (GetExportLine usual [⟨"a;b\n".toList, true⟩, ⟨[], false⟩]) =
    ["a;b\n".toList, []] := by
  refine (pasteExact usual [⟨"a;b\n".toList, true⟩, ⟨[], false⟩] (by decide)).mpr ?_
  refine .inr ⟨'"', rfl, .inl rfl, fun text member => freeWithout ?_⟩
  revert text
  decide

theorem quoteInside : ¬ Paste usual (GetExportLine usual [⟨"a\";b".toList, true⟩]) = ["a\";b".toList] := by
  have single : usual.quoteChar = ['"'] := rfl
  intro same
  rw [Paste, show GetExportLine usual [⟨"a\";b".toList, true⟩] = '"' :: ("a\";b".toList ++ ['"']) from rfl,
    parseOpens single] at same
  exact absurd ((lastRead single _).mp same ['a'] ';' ['b', '"'] rfl) (by decide)

end PgAdmin.ctlSQLGrid
