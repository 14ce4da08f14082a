import PgAdmin.ExportForm

/-! What Export wrote, read as CSV. It gives back the names and the rows exactly if the result has a
column, no text without quotes could be taken for more or for less than itself, no name that the grid
cuts has a second line, and the grid has its first column, or else has nothing to show. -/
namespace PgAdmin.frmExport
open PgsObjects (Text)
open wxString Substitution CsvDecoding

/- The form in the terms of the reader: one letter each, and a mode with quotes. -/
structure Form.Reads (form : Form) (format : Format Char) : Prop where
  separator : form.cbColSeparator = [format.separator]
  quote : form.cbQuoteChar = [format.quote]
  lineEnd : form.rowSeparator = format.lineEnd
  quotes : form.quoting ≠ .rbQuoteNone
  unicode : form.rbUnicode = true

def headerCells (source : Source) : List (Cell Char) :=
  (List.range source.colCount).map fun col => ⟨true, source.header col⟩

def rowCells (form : Form) (source : Source) (row : ℕ) : List (Cell Char) :=
  (List.range source.colCount).map fun col =>
    ⟨form.needQuote (source.typOid col), source.text row col⟩

section Writing
variable {mb_str : Text → Bool} {form : Form} {format : Format Char} {source : Source}

theorem quoteWritten (reads : form.Reads format) (text : Text) :
    form.quote text = Cell.written format ⟨true, text⟩ := by
  simp [Form.quote, Cell.written, double, reads.quote, replaceLetter]

theorem headerWritten (reads : form.Reads format) (source : Source) (col : ℕ) :
    form.headerCell source col = Cell.written format ⟨true, source.header col⟩ := by
  rw [Form.headerCell, if_neg reads.quotes, quoteWritten reads]

theorem cellWritten (reads : form.Reads format) (source : Source) (row col : ℕ) :
    form.rowCell source row col =
      Cell.written format ⟨form.needQuote (source.typOid col), source.text row col⟩ := by
  rw [Form.rowCell]
  cases needs : form.needQuote (source.typOid col) with
  | true => exact quoteWritten reads _
  | false => rfl

theorem intercalateConcat (separator : Text) {texts : List Text} (nonempty : texts ≠ []) (last : Text) :
    separator.intercalate (texts ++ [last]) = separator.intercalate texts ++ separator ++ last := by
  induction texts with
  | nil => exact absurd rfl nonempty
  | cons text texts ih =>
    cases texts with
    | nil => simp [List.intercalate_cons_cons]
    | cons next texts =>
      have inner := ih (List.cons_ne_nil next texts)
      rw [List.cons_append] at inner
      rw [List.cons_append, List.cons_append, List.intercalate_cons_cons,
        List.intercalate_cons_cons, inner]
      simp only [List.append_assoc]

theorem lineWritten (reads : form.Reads format) (cell : ℕ → Text) (line : Text) (colCount : ℕ) :
    (List.range (colCount + 1)).foldl (form.addCell cell) line =
      [format.separator].intercalate ((List.range (colCount + 1)).map cell) := by
  induction colCount with
  | zero => simp [Form.addCell]
  | succ colCount ih =>
    rw [List.range_succ, List.foldl_append, ih, List.map_append, List.foldl_cons, List.foldl_nil,
      Form.addCell, if_neg (Nat.succ_ne_zero colCount), reads.separator, List.map_singleton,
      intercalateConcat [format.separator] (by simp)]

theorem writeFile (reads : form.Reads format) (out : Output) {colCount : ℕ} (columns : 0 < colCount)
    (cells : ℕ → Cell Char) :
    (out.write mb_str form colCount fun col => (cells col).written format).file =
      out.file ++ written format ((List.range colCount).map cells) := by
  obtain ⟨colCount, rfl⟩ := Nat.exists_eq_succ_of_ne_zero columns.ne'
  rw [Output.write, reads.unicode, Bool.true_or, if_pos rfl, lineWritten reads, reads.lineEnd,
    written, List.map_map]
  rfl

theorem moveNextColumns (source : Source) : source.MoveNext.dataSet.columns = source.dataSet.columns := by
  cases source with
  | fromSet set =>
    simp only [Source.MoveNext, Source.dataSet, pgSet.MoveNext]
    split <;> rfl
  | fromGrid grid => rfl

theorem movedColumns (source : Source) (moves : ℕ) :
    (Source.MoveNext^[moves] source).colCount = source.colCount := by
  induction moves with
  | zero => rfl
  | succ moves ih =>
    rw [Function.iterate_succ_apply', ← ih, Source.colCount, pgSet.NumCols, moveNextColumns]
    rfl

theorem rowsWritten (reads : form.Reads format) (out : Output) (columns : 0 < source.colCount)
    (rowCount : ℕ) :
    let after := (List.range rowCount).foldl (exportRow mb_str form) (source, out)
    after.1 = Source.MoveNext^[rowCount] source ∧
      after.2.file = out.file ++ encode format
        ((List.range rowCount).map fun row => rowCells form (Source.MoveNext^[row] source) row) := by
  induction rowCount with
  | zero => exact ⟨rfl, by simp [encode]⟩
  | succ rowCount ih =>
    obtain ⟨moved, file⟩ := ih
    rw [List.range_succ, List.foldl_append, List.map_append, encode, List.flatMap_append, ← encode,
      ← List.append_assoc, ← file, List.foldl_cons, List.foldl_nil, exportRow, moved,
      Function.iterate_succ_apply']
    refine ⟨rfl, ?_⟩
    have cells : form.rowCell (Source.MoveNext^[rowCount] source) rowCount = fun col =>
        Cell.written format ⟨form.needQuote ((Source.MoveNext^[rowCount] source).typOid col),
          (Source.MoveNext^[rowCount] source).text rowCount col⟩ :=
      funext (cellWritten reads _ rowCount)
    rw [cells, writeFile reads _ ((movedColumns source rowCount).symm ▸ columns)]
    simp [rowCells]

def Source.shift : Source → ℕ
  | .fromSet _ => 0
  | .fromGrid grid => if grid.rowcountSuppressed then 1 else 0

def shownCells (form : Form) (source : Source) (row : List Text) : List (Cell Char) :=
  (List.range source.colCount).map fun col =>
    ⟨form.needQuote (source.typOid col), row.getD (col + source.shift) []⟩

variable {result : pgSet}

theorem movedGrid (grid : ctlSQLResult) (moves : ℕ) :
    Source.MoveNext^[moves] (.fromGrid grid) = .fromGrid grid :=
  Function.iterate_fixed rfl moves

theorem movedSet (first : result = result.MoveFirst) {moves : ℕ} (within : moves < result.NumRows) :
    Source.MoveNext^[moves] (.fromSet result) = .fromSet (result.Locate (moves + 1)) := by
  induction moves with
  | zero =>
    conv_lhs => rw [Function.iterate_zero, id, first]
    rw [pgSet.MoveFirst, if_neg (Nat.ne_zero_of_lt within)]
    rfl
  | succ moves ih =>
    rw [Function.iterate_succ_apply', ih (Nat.lt_of_succ_lt within), Source.MoveNext, pgSet.MoveNext,
      if_pos]
    · rfl
    · exact within.le

theorem shownRow (shows : Shows result source) {row : ℕ} (within : row < result.rows.length) :
    rowCells form (Source.MoveNext^[row] source) row = shownCells form source (result.rows.getD row []) := by
  rw [rowCells, movedColumns, shownCells]
  cases shows with
  | set first =>
    rw [movedSet first within]
    rfl
  | grid single =>
    rw [movedGrid]
    cases single <;> rfl

theorem mapGetD {α β : Type} (f : α → β) (list : List α) (default : α) :
    (List.range list.length).map (fun i => f (list.getD i default)) = list.map f := by
  refine List.ext_getElem (by simp) fun i within inList => ?_
  have inRange : i < list.length := by simpa using inList
  simp [inRange]

theorem exportFile (reads : form.Reads format) (shows : Shows result source)
    (columns : 0 < source.colCount) :
    (Export mb_str form source).file = encode format
      ((if form.chkColnames then [headerCells source] else []) ++
        result.rows.map (shownCells form source)) := by
  have count : source.rowCount = result.rows.length := by
    cases shows <;> rfl
  have rows : (List.range source.rowCount).map
      (fun row => rowCells form (Source.MoveNext^[row] source) row) =
      result.rows.map (shownCells form source) := by
    rw [count, ← mapGetD (shownCells form source) result.rows []]
    exact List.map_congr_left fun row member => shownRow shows (List.mem_range.mp member)
  have header : form.headerCell source = fun col =>
      Cell.written format ⟨true, source.header col⟩ := funext (headerWritten reads source)
  rw [Export, (rowsWritten reads _ columns _).2, rows]
  cases form.chkColnames with
  | false => simp
  | true =>
    simp only [if_true]
    rw [header, writeFile reads _ columns]
    simp [encode, headerCells]

end Writing

section Condition
variable (format : Format Char) (form : Form) (result : pgSet)

def AnyColumn : Prop := result.columns ≠ [] ∨ form.chkColnames = false ∧ result.rows = []

def PlainTexts : Prop := ∀ row ∈ result.rows, ∀ cell ∈ row.zip result.columns,
  form.needQuote (some cell.2.typClass) = false → Plain format cell.1

def OneLineNames : Prop :=
  form.chkColnames = true → ∀ column ∈ result.columns, '\n' ∉ column.name

def AllEmpty : Prop := (form.chkColnames = true → ∀ column ∈ result.columns, column.name = []) ∧
  ∀ row ∈ result.rows, ∀ text ∈ row, text = []

def Decodable : Source → Prop
  | .fromSet _ => AnyColumn form result ∧ PlainTexts format form result
  | .fromGrid grid => AnyColumn form result ∧
    if grid.rowcountSuppressed then AllEmpty form result
    else PlainTexts format form result ∧ OneLineNames form result

end Condition

section Shift

theorem shiftedTexts (texts : List Text) {cut : Text → Text} (empty : cut [] = []) :
    (List.range texts.length).map (fun col => cut (texts.getD (col + 1) [])) = texts ↔
      ∀ text ∈ texts, text = [] := by
  induction texts with
  | nil => simp
  | cons text texts ih =>
    rw [List.length_cons, List.range_succ_eq_map, List.map_cons, List.map_map, List.cons.injEq,
      List.forall_mem_cons]
    have others : ((fun col => cut ((text :: texts).getD (col + 1) [])) ∘ Nat.succ) =
        fun col => cut (texts.getD (col + 1) []) := rfl
    rw [others, ih]
    refine and_congr_left fun allEmpty => ?_
    have next : (text :: texts).getD (0 + 1) [] = [] := by
      cases texts with
      | nil => rfl
      | cons other texts => exact allEmpty other List.mem_cons_self
    rw [next, empty, eq_comm]

theorem cutTexts (texts : List Text) : texts.map (BeforeFirst · '\n') = texts ↔ ∀ text ∈ texts, '\n' ∉ text := by
  induction texts with
  | nil => simp
  | cons text texts ih =>
    rw [List.map_cons, List.cons.injEq, ih, List.forall_mem_cons]
    refine and_congr_left fun _ => ?_
    rw [BeforeFirst, List.takeWhile_eq_self_iff]
    simp only [ne_eq, decide_eq_true_eq]
    exact ⟨fun all member => all _ member rfl, fun free l member same => free (same ▸ member)⟩

end Shift

def NamesShown (result : pgSet) : Source → Prop
  | .fromSet _ => True
  | .fromGrid grid => if grid.rowcountSuppressed then ∀ column ∈ result.columns, column.name = []
    else ∀ column ∈ result.columns, '\n' ∉ column.name

def RowShown (row : List Text) : Source → Prop
  | .fromSet _ => True
  | .fromGrid grid => grid.rowcountSuppressed = true → ∀ text ∈ row, text = []

section Texts
variable {format : Format Char} {form : Form} {source : Source} {result : pgSet}

theorem headerTexts (shows : Shows result source) :
    (headerCells source).map Cell.text = result.columns.map Column.name ↔ NamesShown result source := by
  have length : result.columns.length = (result.columns.map Column.name).length := by simp
  rw [headerCells, List.map_map]
  cases shows with
  | set first =>
    refine iff_of_true ?_ trivial
    have same := mapGetD id (result.columns.map Column.name) []
    rw [← length, List.map_id] at same
    exact same
  | grid single =>
    cases single with
    | true =>
      have off := shiftedTexts (result.columns.map Column.name)
        (show BeforeFirst [] '\n' = [] from rfl)
      rw [← length, List.forall_mem_map] at off
      exact off
    | false =>
      have same := mapGetD (BeforeFirst · '\n') (result.columns.map Column.name) []
      have whole := cutTexts (result.columns.map Column.name)
      rw [← same, ← length, List.forall_mem_map] at whole
      exact whole

theorem rowTexts (shows : Shows result source) {row : List Text} (member : row ∈ result.rows) :
    (shownCells form source row).map Cell.text = row ↔ RowShown row source := by
  have length := result.widths row member
  rw [shownCells, List.map_map]
  cases shows with
  | set first =>
    refine iff_of_true ?_ trivial
    have same := mapGetD id row []
    rw [length, List.map_id] at same
    exact same
  | grid single =>
    cases single with
    | true =>
      have off := shiftedTexts row (show id [] = [] from rfl)
      rw [length] at off
      exact off.trans ⟨fun empty _ => empty, fun empty => empty rfl⟩
    | false =>
      have same := mapGetD id row []
      rw [length, List.map_id] at same
      exact iff_of_true same fun none => nomatch none

theorem quotesUnknown (reads : form.Reads format) : form.needQuote none = true := by
  cases mode : form.quoting with
  | rbQuoteNone => exact absurd mode reads.quotes
  | rbQuoteStrings => simp [Form.needQuote, mode]
  | rbQuoteAll => simp [Form.needQuote, mode]

theorem zipGetD {α β : Type} {P : α → β → Prop} {as : List α} {bs : List β} (length : as.length = bs.length)
    (a : α) : (∀ i b, bs[i]? = some b → P (as.getD i a) b) ↔ ∀ pair ∈ as.zip bs, P pair.1 pair.2 := by
  induction as generalizing bs with
  | nil =>
    have none : bs = [] := List.eq_nil_of_length_eq_zero length.symm
    simp [none]
  | cons x as ih =>
    cases bs with
    | nil => exact nomatch length
    | cons y bs =>
      rw [List.zip_cons_cons, List.forall_mem_cons, ← ih (Nat.succ.inj length)]
      constructor
      · exact fun all => ⟨all 0 y rfl, fun i b => all (i + 1) b⟩
      · rintro ⟨first, others⟩ (_ | i) b found
        · cases found
          exact first
        · exact others i b found

theorem typOidShown (shows : Shows result source) (col : ℕ) :
    source.typOid col =
      if source.shift = 0 then result.columns[col]?.map Column.typClass else none := by
  cases shows with
  | set first => rfl
  | grid single =>
    cases single with
    | true => cases col <;> rfl
    | false =>
      simp only [Source.typOid, ctlSQLResult.DisplayData, Source.shift]
      cases inRange : result.columns[col]? <;> simp [List.getD, inRange]

theorem rowReadable (reads : form.Reads format) (shows : Shows result source) :
    (∀ row ∈ result.rows, ∀ cell ∈ shownCells form source row, Readable format cell) ↔
      (source.shift = 0 → PlainTexts format form result) := by
  by_cases shift : source.shift = 0
  · rw [forall_prop_of_true shift, PlainTexts]
    refine forall₂_congr fun row member => ?_
    rw [← zipGetD (P := fun text column => form.needQuote (some column.typClass) = false →
      Plain format text) (result.widths row member) []]
    simp only [shownCells, List.forall_mem_map, List.mem_range, typOidShown shows, shift, if_true,
      Readable, Nat.add_zero]
    have columns : source.colCount = result.columns.length := by
      cases shows <;> rfl
    rw [columns]
    constructor
    · rintro all col column found plain
      have within := (List.getElem?_eq_some_iff.mp found).1
      have readable := all col within
      rw [found, Option.map_some, plain] at readable
      exact readable.resolve_left (by decide)
    · rintro all col within
      rw [List.getElem?_eq_getElem within, Option.map_some]
      cases needs : form.needQuote (some result.columns[col].typClass) with
      | true => exact .inl rfl
      | false => exact .inr (all col _ (List.getElem?_eq_getElem within) needs)
  · refine iff_of_true (fun row member cell inRow => ?_) fun none => absurd none shift
    obtain ⟨col, -, rfl⟩ := List.mem_map.mp inRow
    refine .inl ?_
    rw [typOidShown shows, if_neg shift, quotesUnknown reads]

theorem writtenTexts (form : Form) (source : Source) (result : pgSet) :
    ((if form.chkColnames then [headerCells source] else []) ++
      result.rows.map (shownCells form source)).map (List.map Cell.text) = table form result ↔
    (form.chkColnames = true →
      (headerCells source).map Cell.text = result.columns.map Column.name) ∧
    ∀ row ∈ result.rows, (shownCells form source row).map Cell.text = row := by
  have rows : (result.rows.map (shownCells form source)).map (List.map Cell.text) = result.rows ↔
      ∀ row ∈ result.rows, (shownCells form source row).map Cell.text = row := by
    rw [List.map_map]
    conv_lhs => rhs; rw [← List.map_id result.rows]
    rw [List.map_inj_left]
    rfl
  rw [← rows, table, List.map_append]
  cases form.chkColnames with
  | false => simp
  | true => simp

theorem writtenReadable (reads : form.Reads format) (shows : Shows result source) :
    (∀ row ∈ (if form.chkColnames then [headerCells source] else []) ++
      result.rows.map (shownCells form source), ∀ cell ∈ row, Readable format cell) ↔
    (source.shift = 0 → PlainTexts format form result) := by
  have header : ∀ cell ∈ headerCells source, Readable format cell := by
    intro cell member
    obtain ⟨col, -, rfl⟩ := List.mem_map.mp member
    exact .inl rfl
  rw [List.forall_mem_append, List.forall_mem_map, rowReadable reads shows]
  refine and_iff_right ?_
  cases form.chkColnames with
  | false => exact fun row member => nomatch member
  | true => exact List.forall_mem_singleton.mpr header

theorem decodableColumns (shows : Shows result source) (some : result.columns ≠ []) :
    ((form.chkColnames = true →
      (headerCells source).map Cell.text = result.columns.map Column.name) ∧
    ∀ row ∈ result.rows, (shownCells form source row).map Cell.text = row) ∧
    (source.shift = 0 → PlainTexts format form result) ↔ Decodable format form result source := by
  have rows : (∀ row ∈ result.rows, (shownCells form source row).map Cell.text = row) ↔
      ∀ row ∈ result.rows, RowShown row source := forall₂_congr fun row member => rowTexts shows member
  rw [headerTexts shows, rows]
  cases shows with
  | set first => simp [Decodable, AnyColumn, some, Source.shift, NamesShown, RowShown]
  | grid single =>
    cases single with
    | true =>
      simp [Decodable, AnyColumn, some, Source.shift, NamesShown, RowShown, AllEmpty,
        ctlSQLResult.DisplayData]
    | false =>
      simp [Decodable, AnyColumn, some, Source.shift, NamesShown, RowShown, OneLineNames,
        ctlSQLResult.DisplayData, and_comm]

theorem noColumns {mb_str : Text → Bool} (shows : Shows result source) (none : result.columns = []) :
    decode format (Export mb_str form source).file = some (table form result) ↔
      Decodable format form result source := by
  have empty : ∀ row ∈ result.rows, row = [] := fun row member =>
    List.eq_nil_of_length_eq_zero (by rw [result.widths row member, none]; rfl)
  have condition : Decodable format form result source ↔
      form.chkColnames = false ∧ result.rows = [] := by
    have plain : PlainTexts format form result := fun row _ cell inZip => by
      rw [none, List.zip_nil_right] at inZip
      exact nomatch inZip
    have lines : OneLineNames form result := fun _ column member => by
      rw [none] at member
      exact nomatch member
    have all : AllEmpty form result := by
      refine ⟨fun _ column member => ?_, fun row member text inRow => ?_⟩
      · rw [none] at member
        exact nomatch member
      · rw [empty row member] at inRow
        exact nomatch inRow
    cases shows with
    | set first => simp [Decodable, AnyColumn, none, plain]
    | grid single =>
      cases single <;> simp [Decodable, AnyColumn, none, plain, lines, all, ctlSQLResult.DisplayData]
  rw [condition]
  constructor
  · intro found
    cases chosen : form.chkColnames with
    | true =>
      rw [table, chosen, none] at found
      exact absurd found decodesNoEmptyRow
    | false =>
      cases rows : result.rows with
      | nil => exact ⟨rfl, rfl⟩
      | cons row others =>
        have first := empty row (rows ▸ List.mem_cons_self)
        rw [table, chosen, rows, first] at found
        exact absurd found decodesNoEmptyRow
  · rintro ⟨notChosen, noRows⟩
    have count : source.rowCount = 0 := by
      cases shows <;> simp [Source.rowCount, Source.dataSet, pgSet.NumRows, noRows, ctlSQLResult.DisplayData]
    rw [table, Export, count, notChosen, noRows]
    rfl

theorem expected (reads : form.Reads format) (shows : Shows result source) :
    List.Forall₂ (fun row cells => (∀ cell ∈ row, Readable format cell) ∨ row.map Cell.text = cells)
      ((if form.chkColnames then [headerCells source] else []) ++
        result.rows.map (shownCells form source)) (table form result) := by
  have header : ∀ cell ∈ headerCells source, Readable format cell := fun cell member => by
    obtain ⟨col, -, rfl⟩ := List.mem_map.mp member
    exact .inl rfl
  have rows : List.Forall₂ (fun row cells => (∀ cell ∈ row, Readable format cell) ∨
      row.map Cell.text = cells) (result.rows.map (shownCells form source)) result.rows := by
    rw [List.forall₂_map_left_iff, List.forall₂_same]
    intro row member
    by_cases shift : source.shift = 0
    · refine .inr ((rowTexts shows member).mpr ?_)
      cases shows with
      | set first => trivial
      | grid single =>
        cases single with
        | true => exact nomatch shift
        | false => exact fun none => nomatch none
    · exact .inl ((rowReadable reads shows).mpr (fun none => absurd none shift) row member)
  rw [table]
  cases form.chkColnames with
  | false => exact rows
  | true => exact .cons (.inl header) rows

/- Reading what Export wrote as CSV gives back the names, if they were chosen, and the rows. -/
theorem exportDecodes {mb_str : Text → Bool} (reads : form.Reads format) (shows : Shows result source) :
    decode format (Export mb_str form source).file = some (table form result) ↔
      Decodable format form result source := by
  have columns : source.colCount = result.columns.length := by
    cases shows <;> rfl
  by_cases none : result.columns = []
  · exact noColumns shows none
  have some : 0 < source.colCount := columns ▸ List.length_pos_iff.mpr none
  have nonempty : ∀ row ∈ (if form.chkColnames then [headerCells source] else []) ++
      result.rows.map (shownCells form source), row ≠ [] := by
    have cells {f : ℕ → Cell Char} : (List.range source.colCount).map f ≠ [] := by
      simpa using some.ne'
    rw [List.forall_mem_append, List.forall_mem_map]
    refine ⟨?_, fun row _ => cells⟩
    cases form.chkColnames with
    | false => exact fun row member => nomatch member
    | true => exact List.forall_mem_singleton.mpr cells
  rw [exportFile reads shows some, decode,
    decodes (encodeLength _) nonempty (expected reads shows), writtenTexts,
    writtenReadable reads shows, decodableColumns shows none]

def commas : Format Char := ⟨',', '"', '\n', [], by decide, by decide, by decide, by decide⟩

def commaForm : Form := ⟨.rbQuoteStrings, false, true, false, [','], ['"']⟩

theorem commaReads : commaForm.Reads commas := ⟨rfl, rfl, rfl, by decide, rfl⟩

def amounts (amount : Text) : pgSet :=
  ⟨[⟨['a'], .PGTYPCLASS_NUMERIC⟩, ⟨['b'], .PGTYPCLASS_STRING⟩], [[amount, ['x', ',']]], 1, by simp⟩

theorem exportDecodesAmount :
    decode commas (Export (fun _ => true) commaForm (.fromSet (amounts ['1', '2']))).file =
      some [[['1', '2'], ['x', ',']]] := by
  refine (exportDecodes commaReads (.set rfl)).mpr ⟨.inl (List.cons_ne_nil _ _), fun row member => ?_⟩
  obtain rfl : row = [['1', '2'], ['x', ',']] := List.mem_singleton.mp member
  decide

/- An amount of money, whose thousands the server separates by commas, is numeric. -/
theorem amountSplit :
    ¬ ∀ (mb_str : Text → Bool) (form : Form) (format : Format Char) (result : pgSet) (source : Source),
      form.Reads format → Shows result source →
        decode format (Export mb_str form source).file = some (table form result) := by
  intro all
  have read := all (fun _ => true) commaForm commas (amounts ['$', '1', ',', '0', '0', '0', '.', '0', '0']) _
    commaReads (.set rfl)
  exact absurd read (by decide)

end Texts
end PgAdmin.frmExport
