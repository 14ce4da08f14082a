import PgAdmin.PgsRecordLines

/-! rec.string().record() has the cells of rec. Counting and inserting the elements of a line are
two runs of the same search; the lines are then read one after another until no text is left. -/
namespace PgAdmin.PgsObjects
open Regular

namespace PgsRecord

structure Filling (r : PgsRecord) (complete : List (List Scalar)) (written : List Scalar) :
    Prop where
  inside : written.length ≤ r.columns.length
  lines : r.lines = complete ++ if written = [] then []
    else [written ++ List.replicate (r.columns.length - written.length) (.pgsString [])]

theorem Filling.blank {r : PgsRecord} {complete : List (List Scalar)}
    (same : r.lines = complete) : r.Filling complete [] :=
  ⟨Nat.zero_le _, by simpa using same⟩

theorem insertFilling {r : PgsRecord} {complete : List (List Scalar)} {written : List Scalar}
    (filling : r.Filling complete written) (room : written.length < r.columns.length)
    (fits : complete.length < 65535) (w : Scalar) {fuel : ℕ} (enough : 2 ≤ fuel) :
    ∃ after, r.insert fuel (UInt16.ofNat complete.length) (UInt16.ofNat written.length) w =
        some (true, after) ∧ after.columns = r.columns ∧
      after.Filling complete (written ++ [w]) := by
  have line : (UInt16.ofNat complete.length).toNat = complete.length := by
    rw [UInt16.toNat_ofNat']
    exact Nat.mod_eq_of_lt (by omega)
  have column : (UInt16.ofNat written.length).toNat = written.length := by
    have := r.columnsFit
    rw [UInt16.toNat_ofNat']
    exact Nat.mod_eq_of_lt (by omega)
  have length : complete.length ≤ r.lines.length := by
    rw [filling.lines, List.length_append]
    omega
  obtain ⟨grown, ok⟩ := growEnds r (UInt16.ofNat complete.length) (by omega)
    (show _ < fuel by omega)
  obtain ⟨-, columns, lines⟩ := growShape ok
  have shape : grown.lines = complete ++
      [written ++ List.replicate (r.columns.length - written.length) (.pgsString [])] := by
    rw [lines, line, filling.lines]
    by_cases first : written = []
    · simp [first, blankLine]
    · simp [first]
  have inside : ¬ r.countColumns ≤ UInt16.ofNat written.length := by
    rw [UInt16.le_iff_toNat_le, countColumnsNat, column]
    omega
  refine ⟨grown.setCell complete.length written.length w, ?_, columns, ?_, ?_⟩
  · rw [insert, ok, Option.map_some, if_neg inside, line, column]
  · rw [setCellColumns, columns, List.length_append]
    exact room
  · have rest : r.columns.length - written.length =
        (r.columns.length - (written.length + 1)) + 1 := by omega
    rw [setCellLines, setCellColumns, shape, columns, List.modify_eq_take_cons_drop (by simp)]
    simp [rest, List.replicate_succ]

end PgsRecord

namespace PgsString
open PgsRecord

/- What the loop over the elements of a line skips: the white space, the parenthesis and the
commas before the next cell. -/
def Skipped (p : Text) : Prop := ∀ c ∈ p, ¬ Starts c

theorem skippedComma {p : Text} (skipped : Skipped p) : Skipped (p ++ [',']) := by
  intro c member
  rcases List.mem_append.mp member with before | comma
  · exact skipped c before
  · cases List.mem_singleton.mp comma
    unfold Starts
    decide

theorem skippedEnd {p : Text} (skipped : Skipped p) : Skipped (p ++ [')']) := by
  intro c member
  rcases List.mem_append.mp member with before | closes
  · exact skipped c before
  · cases List.mem_singleton.mp closes
    unfold Starts
    decide

theorem skippedOpen (ctype : Ctype) {blank : Text} (spaces : ∀ c ∈ blank, ctype.isSpace c) :
    Skipped (blank ++ ['(']) := by
  intro c member
  rcases List.mem_append.mp member with space | opens
  · rintro (rfl | word)
    · exact absurd (spaces _ space) (by simp [ctype.graphic '"' (by decide) (by decide)])
    · exact absurd (spaces c space) (by simp [wordNoSpace ctype word])
  · cases List.mem_singleton.mp opens
    unfold Starts
    decide

theorem countCells {p e : Text} {cells : List Text} (skipped : Skipped p)
    (first : e ∈ element.language) (elements : ∀ e ∈ cells, e ∈ element.language) {fuel : ℕ}
    (enough : cells.length + 2 ≤ fuel) (columns : ℕ) :
    countElements fuel (p ++ e ++ tailCode cells) columns = some (columns + cells.length + 1) := by
  induction cells generalizing p e fuel columns with
  | nil =>
    obtain ⟨fuel, rfl⟩ : ∃ n, fuel = n + 2 := ⟨fuel - 2, by simp at enough; omega⟩
    rw [countElements, searchCell skipped first (by simpa using stopsTail [] [])]
    simp only [tailNil, List.length_nil, Nat.add_zero]
    rw [countElements, searchEnd (skippedEnd skipped)]
  | cons e' cells ih =>
    rw [List.length_cons] at enough
    obtain ⟨fuel, rfl⟩ : ∃ n, fuel = n + 1 := ⟨fuel - 1, by omega⟩
    have stops := stopsTail (e' :: cells) []
    rw [List.append_nil] at stops
    rw [countElements, searchCell skipped first stops]
    have next := ih (p := p ++ [',']) (skippedComma skipped)
      (elements e' List.mem_cons_self) (fun e m => elements e (List.mem_cons_of_mem _ m))
      (show cells.length + 2 ≤ fuel by omega) (columns + 1)
    simp only [tailCons, List.length_cons]
    rw [show p ++ ',' :: (e' ++ tailCode cells) = p ++ [','] ++ e' ++ tailCode cells by simp, next]
    congr 1
    omega

def readBack (ctype : Ctype) (v : Scalar) : Scalar := cell ctype v.code

theorem insertCells (ctype : Ctype) {p : Text} {v : Scalar} {cells written : List Scalar}
    {complete : List (List Scalar)} {r : PgsRecord} (skipped : Skipped p) (plain : v.Plain)
    (plains : ∀ v ∈ cells, v.Plain) (filling : r.Filling complete written)
    (width : r.columns.length = written.length + 1 + cells.length)
    (fits : complete.length < 65535) {fuel : ℕ} (enough : cells.length + 3 ≤ fuel) :
    ∃ after, insertElements ctype r.columns.length complete.length fuel
        (p ++ v.code ++ tailCode (cells.map Scalar.code)) written.length r = some after ∧
      after.columns = r.columns ∧
      after.lines = complete ++ [written ++ (v :: cells).map (readBack ctype)] := by
  induction cells generalizing p v written r fuel with
  | nil =>
    obtain ⟨fuel, rfl⟩ : ∃ n, fuel = n + 2 := ⟨fuel - 2, by simp at enough; omega⟩
    simp only [List.length_nil, Nat.add_zero] at width enough
    obtain ⟨mid, inserted, columns, filled⟩ := insertFilling filling (by omega) fits
      (readBack ctype v) (show 2 ≤ fuel + 1 by omega)
    refine ⟨mid, ?_, columns, ?_⟩
    · rw [insertElements, searchCell skipped (codeElement plain) (by simpa using stopsTail [] [])]
      simp only [if_pos (show written.length < r.columns.length by omega)]
      rw [← readBack, inserted, Option.map_some, Option.bind_some, insertElements]
      simp only [List.map_nil, tailNil, searchEnd (skippedEnd skipped)]
    · have full : mid.columns.length - (written ++ [readBack ctype v]).length = 0 := by
        rw [columns, List.length_append, List.length_singleton]
        omega
      rw [filled.lines, full]
      simp
  | cons v' cells ih =>
    obtain ⟨fuel, rfl⟩ : ∃ n, fuel = n + 1 := ⟨fuel - 1, by omega⟩
    rw [List.length_cons] at width enough
    obtain ⟨mid, inserted, columns, filled⟩ := insertFilling filling (by omega) fits
      (readBack ctype v) (show 2 ≤ fuel by omega)
    have stops := stopsTail ((v' :: cells).map Scalar.code) []
    rw [List.append_nil] at stops
    have counted : (written ++ [readBack ctype v]).length = written.length + 1 := by simp
    obtain ⟨after, read, same, lines⟩ := ih (p := p ++ [',']) (skippedComma skipped)
      (plains v' List.mem_cons_self) (fun v m => plains v (List.mem_cons_of_mem _ m)) filled
      (by rw [columns, counted]; omega) (show cells.length + 3 ≤ fuel by omega)
    refine ⟨after, ?_, same.trans columns, ?_⟩
    · rw [insertElements, searchCell skipped (codeElement plain) stops]
      simp only [if_pos (show written.length < r.columns.length by omega)]
      rw [← readBack, inserted, Option.map_some, Option.bind_some, ← counted, ← columns]
      simpa using read
    · rw [lines]
      simp

/- What value() writes for a line, after the white space that precedes it. -/
def lineOf (blank : Text) (cells : List Scalar) : Text :=
  blank ++ '(' :: ([','].intercalate (cells.map Scalar.code) ++ [')'])

theorem intercalateComma (e : Text) (cells : List Text) :
    [','].intercalate (e :: cells) ++ [')'] = e ++ tailCode cells := by
  induction cells generalizing e with
  | nil => simp
  | cons e' cells ih => simp [ih e']

theorem lineOfCons (blank : Text) (v : Scalar) (cells : List Scalar) :
    lineOf blank (v :: cells) = lineCode blank v.code (cells.map Scalar.code) := by
  rw [lineOf, List.map_cons, intercalateComma, lineCode]

theorem codeElements {cells : List Scalar} (plains : ∀ v ∈ cells, v.Plain) :
    ∀ e ∈ cells.map Scalar.code, e ∈ element.language := by
  intro e member
  obtain ⟨v, inCells, rfl⟩ := List.mem_map.mp member
  exact codeElement (plains v inCells)

theorem readLine (ctype : Ctype) {blank : Text} (spaces : ∀ c ∈ blank, ctype.isSpace c)
    {v : Scalar} {cells : List Scalar} (plain : v.Plain) (plains : ∀ v ∈ cells, v.Plain)
    {complete : List (List Scalar)} {r : PgsRecord} (lines : r.lines = complete)
    (width : r.columns.length = cells.length + 1) (fits : complete.length < 65535) {fuel : ℕ}
    (enough : cells.length + 3 ≤ fuel) (rest : Text) :
    ∃ after, recordLines ctype (fuel + 1) (lineOf blank (v :: cells) ++ rest) r.columns.length
        complete.length (some r) =
      recordLines ctype fuel rest r.columns.length (complete.length + 1) (some after) ∧
      after.columns = r.columns ∧
      after.lines = complete ++ [(v :: cells).map (readBack ctype)] := by
  obtain ⟨after, read, columns, written⟩ := insertCells ctype (skippedOpen ctype spaces) plain
    plains (Filling.blank lines) (by simp [width, Nat.add_comm]) fits enough
  refine ⟨after, ?_, columns, by simpa using written⟩
  have found := longestLine ctype spaces (codeElement plain) (codeElements plains) rest
  rw [lineOfCons, recordLines, found]
  simp only [List.take_left, List.drop_left]
  rw [lineCode, show blank ++ '(' :: (v.code ++ tailCode (cells.map Scalar.code)) =
    blank ++ ['('] ++ v.code ++ tailCode (cells.map Scalar.code) by simp, ← List.length_nil, read]
  rfl

theorem readEnd (ctype : Ctype) (fuel columns lineNb : ℕ) (r : Option PgsRecord) :
    recordLines ctype (fuel + 1) [] columns lineNb r = some r := rfl

theorem readLines (ctype : Ctype) {lines complete : List (List Scalar)} {r : PgsRecord}
    (plains : ∀ cells ∈ lines, ∀ v ∈ cells, v.Plain) (same : r.lines = complete)
    (nonempty : 0 < r.columns.length) (width : ∀ cells ∈ lines, cells.length = r.columns.length)
    (fits : complete.length + lines.length < 65536) {fuel : ℕ}
    (enough : r.columns.length + lines.length + 3 ≤ fuel) :
    ∃ after, recordLines ctype fuel (lines.flatMap (lineOf ['\n'])) r.columns.length
        complete.length (some r) = some (some after) ∧
      after.columns = r.columns ∧
      after.lines = complete ++ lines.map (List.map (readBack ctype)) := by
  induction lines generalizing complete r fuel with
  | nil =>
    obtain ⟨fuel, rfl⟩ : ∃ n, fuel = n + 1 := ⟨fuel - 1, by omega⟩
    exact ⟨r, readEnd .., rfl, by simpa using same⟩
  | cons cells lines ih =>
    rw [List.length_cons] at fits enough
    have length := width cells List.mem_cons_self
    cases cells with
    | nil => simp at length; omega
    | cons v cells =>
      rw [List.length_cons] at length
      obtain ⟨fuel, rfl⟩ : ∃ n, fuel = n + 1 := ⟨fuel - 1, by omega⟩
      have plain := plains _ List.mem_cons_self
      have newline : ∀ c ∈ ['\n'], ctype.isSpace c = true := by
        intro c member
        exact List.mem_singleton.mp member ▸ ctype.newline
      obtain ⟨mid, step, columns, written⟩ := readLine ctype newline (plain v List.mem_cons_self)
        (fun v m => plain v (List.mem_cons_of_mem _ m)) same length.symm (by omega)
        (show cells.length + 3 ≤ fuel by omega) (lines.flatMap (lineOf ['\n']))
      obtain ⟨after, read, columnsAfter, all⟩ := ih (r := mid)
        (fun cells m => plains cells (List.mem_cons_of_mem _ m)) written (columns ▸ nonempty)
        (fun cells m => columns ▸ width cells (List.mem_cons_of_mem _ m))
        (by rw [List.length_append, List.length_singleton]; omega)
        (show mid.columns.length + lines.length + 3 ≤ fuel by rw [columns]; omega)
      refine ⟨after, ?_, columnsAfter.trans columns, by rw [all]; simp⟩
      rw [List.flatMap_cons, step, ← columns]
      simpa using read

end PgsString

namespace PgsRecord

theorem mapPure {σ α β : Type} {f : α → StateM σ β} {g : α → β} {list : List α}
    (each : ∀ a ∈ list, f a = pure (g a)) : list.mapM f = pure (list.map g) := by
  induction list with
  | nil => rfl
  | cons a list ih =>
    rw [List.mapM_cons, each a List.mem_cons_self,
      ih fun a m => each a (List.mem_cons_of_mem _ m)]
    rfl

theorem valueRun {σ : Type} (draw : ℕ → StateM σ Text) {r : PgsRecord}
    (plains : ∀ cells ∈ r.lines, ∀ v ∈ cells, v.Plain) :
    r.value draw = pure (['\n'].intercalate (r.lines.map (PgsString.lineOf []))) := by
  have cellRun : ∀ v : Scalar, v.Plain → cellText draw v = pure v.code := by
    intro v plain
    cases v with
    | pgsNumber data isReal => cases isReal <;> rfl
    | pgsString data => rfl
    | pgsGenerator _ _ => exact False.elim plain
  have lineRun : ∀ cells ∈ r.lines, lineText draw cells = pure (PgsString.lineOf [] cells) := by
    intro cells member
    rw [lineText, mapPure fun v m => cellRun v (plains cells member v m)]
    rfl
  rw [value, mapPure lineRun]
  rfl

/- The same number of lines and columns, and cells alike. -/
structure SameCells (r back : PgsRecord) : Prop where
  countLines : back.countLines = r.countLines
  countColumns : back.countColumns = r.countColumns
  cells : ∀ line column v, r.cellAt line column = some v →
    ∃ w, back.cellAt line column = some w ∧ v.Alike w

theorem intercalateLines (cells : List Scalar) (lines : List (List Scalar)) :
    ['\n'].intercalate ((cells :: lines).map (PgsString.lineOf [])) =
      PgsString.lineOf [] cells ++ lines.flatMap (PgsString.lineOf ['\n']) := by
  induction lines generalizing cells with
  | nil => simp
  | cons next lines ih =>
    rw [List.map_cons, List.map_cons, List.intercalate_cons_cons, ← List.map_cons, ih next]
    simp [PgsString.lineOf]

theorem recordRoundTrip {σ : Type} (ctype : Ctype) (draw : ℕ → StateM σ Text) (s : σ)
    (r : PgsRecord) (lines : 0 < r.countLines) (columns : 0 < r.countColumns)
    (plains : ∀ cells ∈ r.lines, ∀ v ∈ cells, v.Plain) :
    ∃ enough back, (∀ fuel ≥ enough,
        PgsString.record ctype fuel ((r.value draw).run s).1 = some back) ∧ r.SameCells back := by
  have someColumns : 0 < r.columns.length := by
    simpa using UInt16.lt_iff_toNat_lt.mp columns
  have someLines : r.lines ≠ [] := by
    have := UInt16.lt_iff_toNat_lt.mp lines
    rw [countLinesNat] at this
    exact List.ne_nil_of_length_pos this
  obtain ⟨cells, rest, shape⟩ := List.exists_cons_of_ne_nil someLines
  obtain ⟨v, others, rfl⟩ := List.exists_cons_of_ne_nil
    (show cells ≠ [] by
      rintro rfl
      have := r.square [] (shape ▸ List.mem_cons_self)
      simp at this
      omega)
  rw [shape] at plains
  have width := r.square _ (shape ▸ List.mem_cons_self)
  rw [List.length_cons] at width
  have wide := r.columnsFit
  have long := r.linesFit
  rw [shape, List.length_cons] at long
  let start := PgsRecord.create (UInt16.ofNat (others.length + 1))
  have startWidth : start.columns.length = others.length + 1 := by
    simp only [start, create, List.length_replicate, UInt16.toNat_ofNat']
    exact Nat.mod_eq_of_lt (by omega)
  have plain := plains _ List.mem_cons_self
  have first := plain v List.mem_cons_self
  have more := fun v m => plain v (List.mem_cons_of_mem _ m)
  -- the loops take no more turns than there are lines and columns
  have each : ∀ fuel ≥ others.length + rest.length + 7, ∃ back, PgsString.record ctype fuel
        (PgsString.lineOf [] (v :: others) ++ rest.flatMap (PgsString.lineOf ['\n'])) = some back ∧
      back.columns = start.columns ∧
      back.lines = (v :: others).map (PgsString.readBack ctype) ::
        rest.map (List.map (PgsString.readBack ctype)) := by
    intro fuel enough
    obtain ⟨fuel, rfl⟩ : ∃ n, fuel = n + 2 := ⟨fuel - 2, by omega⟩
    have noBlank : ∀ c ∈ ([] : Text), ctype.isSpace c = true := by simp
    have count := PgsString.countCells (PgsString.skippedOpen ctype noBlank)
      (PgsString.codeElement first) (PgsString.codeElements more)
      (show _ ≤ fuel + 1 by rw [List.length_map]; omega) 0
    obtain ⟨mid, step, columnsMid, written⟩ := PgsString.readLine ctype noBlank first more
      (show start.lines = [] from rfl) startWidth (by simp) (show others.length + 3 ≤ fuel by omega)
      (rest.flatMap (PgsString.lineOf ['\n']))
    obtain ⟨back, read, columnsBack, all⟩ := PgsString.readLines ctype
      (fun cells m => plains cells (List.mem_cons_of_mem _ m)) written (by rw [columnsMid]; omega)
      (fun cells m => by
        rw [columnsMid, startWidth, width]
        exact r.square cells (shape ▸ List.mem_cons_of_mem _ m))
      (by simp; omega) (show mid.columns.length + rest.length + 3 ≤ fuel by rw [columnsMid]; omega)
    refine ⟨back, ?_, columnsBack.trans columnsMid, by simpa using all⟩
    have found := PgsString.longestLine ctype noBlank (PgsString.codeElement first)
      (PgsString.codeElements more) (rest.flatMap (PgsString.lineOf ['\n']))
    rw [← PgsString.lineOfCons] at found
    have text : [] ++ ['('] ++ v.code ++ PgsString.tailCode (others.map Scalar.code) =
        PgsString.lineOf [] (v :: others) := by
      rw [PgsString.lineOfCons, PgsString.lineCode]
      simp
    rw [text, List.length_map, Nat.zero_add, ← startWidth] at count
    rw [PgsString.record, PgsString.recordLines, found]
    simp only [List.take_left, count, Option.bind_some]
    have created : PgsRecord.create (UInt16.ofNat start.columns.length) = start := by
      rw [startWidth]
    rw [created]
    have first := step.trans (by simpa [columnsMid] using read)
    rw [List.length_nil] at first
    rw [first]
    rfl
  obtain ⟨back, -, columns, lines⟩ := each _ le_rfl
  have read : ∀ fuel ≥ others.length + rest.length + 7, PgsString.record ctype fuel
      (PgsString.lineOf [] (v :: others) ++ rest.flatMap (PgsString.lineOf ['\n'])) =
        some back := by
    intro fuel enough
    obtain ⟨other, read, columnsToo, linesToo⟩ := each fuel enough
    have same : other = back := by
      cases other
      cases back
      simp only at columns lines columnsToo linesToo
      simp [columns, lines, columnsToo, linesToo]
    rw [read, same]
  have run : ((r.value draw).run s).1 =
      PgsString.lineOf [] (v :: others) ++ rest.flatMap (PgsString.lineOf ['\n']) := by
    rw [valueRun draw (shape ▸ plains), shape, intercalateLines]
    rfl
  refine ⟨_, back, fun fuel enough => run ▸ read fuel enough, ?_, ?_, ?_⟩
  · rw [countLines, countLines, lines, shape]
    simp
  · rw [countColumns, countColumns, columns, startWidth, width]
  · intro line column w found
    rw [cellAt, lines, ← List.map_cons (f := List.map (PgsString.readBack ctype)), ← shape,
      List.getElem?_map]
    rw [cellAt] at found
    obtain ⟨cells, inLines, inCells⟩ := Option.bind_eq_some_iff.mp found
    refine ⟨PgsString.readBack ctype w, ?_, ?_⟩
    · rw [inLines, Option.map_some, Option.bind_some, List.getElem?_map, inCells]
      rfl
    · exact PgsString.cellCode ctype
        (plains cells (shape ▸ List.mem_of_getElem? inLines) w (List.mem_of_getElem? inCells))

def quotes : PgsRecord where
  columns := [[], []]
  lines := [[.pgsString ['"', '\\', ')', ',', '\n'], .pgsNumber ['-', '1'] false]]
  square := by decide
  columnsFit := by decide
  linesFit := by decide

theorem recordRoundTripQuotes : ∃ enough back, (∀ fuel ≥ enough, PgsString.record .plain fuel
      ((quotes.value fun _ => (pure [] : StateM Unit Text)).run ()).1 = some back) ∧
    quotes.SameCells back := by
  refine recordRoundTrip .plain _ () quotes (by decide) (by decide) ?_
  intro cells inLines v inCells
  cases List.mem_singleton.mp inLines
  rcases List.mem_cons.mp inCells with rfl | rest
  · trivial
  · cases List.mem_singleton.mp rest
    exact (rfl : PgsNumber.isValid ['-', '1'] false = true)

end PgsRecord
end PgAdmin.PgsObjects
