import PgAdmin.PgsAssignToRecord
import PgAdmin.PgsStatements
import PgAdmin.PgsStringRecord
import PgAdmin.RegexReplacing
import PgAdmin.Fuelled

/-! pgsExecute::eval: the variables of a statement are replaced in a loop that looks at the whole statement again after
each, the statement is sent, and a record is made of the answer. What the statement says is read here piece by piece,
and what the record holds is said row by row. -/
namespace PgAdmin.PgsObjects
open Substitution

namespace PgsUtilities

def escapeQuotes (s : Text) : Text := replaceAll ['\''] ['\'', '\''] (replaceAll ['\\'] ['\\', '\\'] s)

end PgsUtilities

namespace PgsExecute
open Regular wxRegEx

variable {σ : Type}

def nameLetter (c : Char) : Bool := c.isAlphanum || c = '_' || c = '#' || c = '@'

/- `([^\])(@[a-zA-Z0-9_#@]+)`: in a bracket a backslash is a letter like the others. -/
def identifier : Regular Char :=
  cat (test fun c => c ≠ '\\') (cat (letter '@') (plus (test nameLetter)))

/- GetMatch; the first bracket takes exactly one letter. -/
def identifierGroup (found : Text) : ℕ → Text
  | 0 => found
  | 1 => found.take 1
  | 2 => found.drop 1
  | _ => []

/- `\\(@|\\)` -/
def escaped : Regular Char := cat (letter '\\') (alt (letter '@') (letter '\\'))

def escapedGroup (found : Text) : ℕ → Text
  | 0 => found
  | 1 => found.drop 1
  | _ => []

/- `while (identifier.Matches(stmt))` -/
def substitute (host : Host σ) (vars : PgsVarMap) : ℕ → Text → σ → Option (Text × σ)
  | 0, _, _ => none
  | fuel + 1, stmt, s =>
    match identifier.search stmt with
    | none => some (stmt, s)
    | some (_, found, _) =>
      let var := identifierGroup found 2
      let chr := identifierGroup found 1
      match vars var with
      | some v =>
        let (res, s) := (v.value host).run s
        substitute host vars fuel
          (ReplaceFirst identifier identifierGroup (chr ++ PgsUtilities.escapeQuotes res) stmt) s
      | none =>
        substitute host vars fuel (ReplaceFirst identifier identifierGroup (chr ++ "\\\\".toList ++ var) stmt) s

def statement (host : Host σ) (vars : PgsVarMap) (fuel : ℕ) (query : Text) (s : σ) : Option (Text × σ) :=
  (substitute host vars fuel query s).map fun (stmt, s) => (ReplaceAll escaped escapedGroup "\\1".toList stmt, s)

def sameNoCase (ctype : Ctype) (a b : Text) : Prop := a.map ctype.lower = b.map ctype.lower

instance (ctype : Ctype) (a b : Text) : Decidable (sameNoCase ctype a b) :=
  inferInstanceAs (Decidable (a.map ctype.lower = b.map ctype.lower))

/- The columns of columns_int, and of the others those of columns_real. -/
def columnsInt (ctype : Ctype) (type : Text) : Bool :=
  sameNoCase ctype type "bigint".toList || sameNoCase ctype type "smallint".toList ||
    sameNoCase ctype type "integer".toList

def columnsReal (ctype : Ctype) (type : Text) : Bool :=
  !columnsInt ctype type && (sameNoCase ctype type "real".toList || sameNoCase ctype type "double precision".toList ||
    sameNoCase ctype type "money".toList || sameNoCase ctype type "numeric".toList)

def cellOf (ctype : Ctype) (type value : Text) : Scalar :=
  if columnsInt ctype type ∧ PgsNumber.numType value = .pgsTInt then .pgsNumber (ctype.strip value) false
  else if columnsReal ctype type ∧ PgsNumber.numType value = .pgsTReal then .pgsNumber (ctype.strip value) true
  else .pgsString value

/- The names and types of the columns, and the values of the rows; a server sends at most 1664 columns. -/
structure DataSet where
  columns : List (Text × Text)
  rows : List (List Text)
  square : ∀ row ∈ rows, row.length = columns.length
  few : columns.length < 65536

def insertCells (fuel : ℕ) (line : USHORT) : ℕ → List Scalar → PgsRecord → Option PgsRecord
  | _, [], r => some r
  | i, cell :: cells, r => (r.insert fuel line (UInt16.ofNat i) cell).bind fun out =>
    insertCells fuel line (i + 1) cells out.2

/- `while (!set->Eof())` -/
def insertRows (ctype : Ctype) (fuel : ℕ) (types : List Text) : ℕ → List (List Text) → PgsRecord → Option PgsRecord
  | _, [], r => some r
  | line, row :: rows, r =>
    (insertCells fuel (UInt16.ofNat line) 0 (List.zipWith (cellOf ctype) types row) r).bind fun r =>
      insertRows ctype fuel types (line + 1) rows r

def DataSet.record (ctype : Ctype) (fuel : ℕ) (set : DataSet) : Option PgsRecord :=
  insertRows ctype fuel (set.columns.map Prod.snd) 0 set.rows
    (PgsStatements.setColumnNames ctype 0 (set.columns.map Prod.fst) (.create (UInt16.ofNat set.columns.length)))

def PGSOUTQUERY : Text := "[QUERY    ] ".toList
def PGSOUTWARNING : Text := "[WARNING  ] ".toList

def report (tag message : Text) : Text :=
  tag ++ replaceAll ['\n'] ('\n' :: List.replicate tag.length ' ')
    (ReplaceAll (plus (letter '\n')) (fun found _ => found) ['\n'] message) ++ ['\n']

structure Reply where
  completed : Bool
  messages : Text
  dataSet : Option DataSet
  destroyed : Bool

def answered (ctype : Ctype) (fuel : ℕ) (stmt : Text) (reply : Reply) : Option (Text × PgsRecord) :=
  let message := ctype.strip reply.messages
  if reply.completed = false then some (report PGSOUTWARNING (stmt ++ '\n' :: message), .create 1)
  else if reply.destroyed then some ([], .create 1)
  else
    let text := report PGSOUTQUERY (if message = [] then stmt else stmt ++ '\n' :: message)
    match reply.dataSet with
    | some set => (set.record ctype fuel).map fun rec => (text, rec)
    | none => ((PgsRecord.create 1).insert fuel 0 0 (.pgsNumber ['1'] false)).map fun out => (text, out.2)

def eval (host : Host σ) (vars : PgsVarMap) (fuel : ℕ) (query : Text) (server : Option (Text → StateM σ Reply))
    (s : σ) : Option ((Text × PgsRecord) × σ) :=
  (statement host vars fuel query s).bind fun (stmt, s) =>
    match server with
    | none => some (([], .create 1), s)
    | some server =>
      let (reply, s) := (server stmt).run s
      (answered host.ctype fuel stmt reply).map fun out => (out, s)

/- What a template says: its letters, its escapes, and its names, each with the letter in front of it. -/
inductive Piece where
  | letter (c : Char)
  | escape (c : Char)
  | value (before : Char) (text : Text)
  | unknown (before : Char)

/- The name at the start of a text; there is none behind a backslash, nor at the start of the statement. -/
def nameAt : Option Char → Text → Option (Char × Text)
  | some before, '@' :: rest =>
    if before ≠ '\\' ∧ rest.takeWhile nameLetter ≠ [] then some (before, '@' :: rest.takeWhile nameLetter) else none
  | _, _ => none

def escapeAt : Text → Option Char
  | '\\' :: '@' :: _ => some '@'
  | '\\' :: '\\' :: _ => some '\\'
  | _ => none

/- The text is read once from left to right, with the letter in front of it. The number counts letters already read. -/
def read (host : Host σ) (vars : PgsVarMap) : Option Char → ℕ → Text → σ → List Piece × σ
  | _, _, [], s => ([], s)
  | before, skip + 1, _ :: rest, s => read host vars before skip rest s
  | before, 0, c :: rest, s =>
    match nameAt before (c :: rest) with
    | some (before, name) =>
      match vars name with
      | some v =>
        let (res, s) := (v.value host).run s
        let (pieces, s) := read host vars (some before) (name.length - 1) rest s
        (.value before res :: pieces, s)
      | none =>
        let (pieces, s) := read host vars (some '@') 0 rest s
        (.unknown before :: pieces, s)
    | none =>
      match escapeAt (c :: rest) with
      | some d =>
        let (pieces, s) := read host vars (some d) 1 rest s
        (.escape d :: pieces, s)
      | none =>
        let (pieces, s) := read host vars (some c) 0 rest s
        (.letter c :: pieces, s)

def doubled (value : Text) : Text := value.flatMap fun c => if c = '\'' then ['\'', '\''] else [c]

def Piece.sent : Piece → Text
  | letter c => [c]
  | escape c => [c]
  | value _ text => doubled text
  | unknown _ => ['@']

section Matching

def MatchAt (text : Text) (i : ℕ) : Prop :=
  ∃ c n, text[i]? = some c ∧ c ≠ '\\' ∧ text[i + 1]? = some '@' ∧ text[i + 2]? = some n ∧ nameLetter n

def Stops (after : Text) : Prop := ∀ c, after.head? = some c → nameLetter c = false

theorem takenLetters (text : Text) : ∀ d ∈ text.takeWhile nameLetter, nameLetter d := fun _ mem =>
  List.mem_takeWhile_imp mem

theorem droppedStops (text : Text) : Stops (text.dropWhile nameLetter) := fun d head => by
  have not := List.head?_dropWhile_not nameLetter text
  rw [head] at not
  simpa using not

theorem identifierIff (w : Text) : w ∈ identifier.language ↔
    ∃ c name, w = c :: '@' :: name ∧ c ≠ '\\' ∧ name ≠ [] ∧ ∀ d ∈ name, nameLetter d := by
  unfold identifier
  simp only [language]
  constructor
  · rintro ⟨_, ⟨c, other, rfl⟩, _, ⟨_, ⟨_, at_, rfl⟩, name, letters, rfl⟩, rfl⟩
    obtain ⟨nonempty, letters⟩ := (testPlus nameLetter name).mp letters
    refine ⟨c, name, ?_, by simpa using other, nonempty, letters⟩
    simp only [decide_eq_true_eq] at at_
    simp [at_]
  · rintro ⟨c, name, rfl, other, nonempty, letters⟩
    exact ⟨[c], ⟨c, by simpa using other, rfl⟩, '@' :: name,
      ⟨['@'], ⟨'@', by simp, rfl⟩, name, (testPlus nameLetter name).mpr ⟨nonempty, letters⟩, rfl⟩, rfl⟩

theorem noMatch (text : Text) (i : ℕ) (not : ¬ MatchAt text i) : identifier.longest (text.drop i) = none := by
  refine longestNone.mpr fun w before member => not ?_
  obtain ⟨c, name, rfl, other, nonempty, letters⟩ := (identifierIff w).mp member
  obtain ⟨n, name, rfl⟩ := List.exists_cons_of_ne_nil nonempty
  obtain ⟨after, shape⟩ := before
  have place (j : ℕ) : text[i + j]? = (c :: '@' :: n :: name ++ after)[j]? := by
    rw [shape, List.getElem?_drop]
  exact ⟨c, n, place 0, other, place 1, place 2, letters n List.mem_cons_self⟩

theorem searchNothing {text : Text} (none_ : ∀ i, ¬ MatchAt text i) : identifier.search text = none := by
  refine searchNone fun p q same => ?_
  have nothing := noMatch text p.length (none_ p.length)
  rwa [same, List.drop_left] at nothing

theorem nameTaken {name after : Text} (letters : ∀ d ∈ name, nameLetter d) (stops : Stops after) :
    (name ++ after).takeWhile nameLetter = name := by
  rw [List.takeWhile_append_of_pos letters]
  cases after with
  | nil => simp
  | cons c after => simp [stops c rfl]

theorem nameEnds {name after more : Text} (letters : ∀ d ∈ name, nameLetter d) (stops : Stops after)
    (before : more <+: name ++ after) (all : ∀ d ∈ more, nameLetter d) : more.length ≤ name.length := by
  have run := nameTaken letters stops
  obtain ⟨rest, shape⟩ := before
  rw [← shape, List.takeWhile_append_of_pos all] at run
  rw [← run]
  simp

theorem searchFound (front : Text) {after : Text} {b : Char} {name : Text} (other : b ≠ '\\') (nonempty : name ≠ [])
    (letters : ∀ d ∈ name, nameLetter d) (stops : Stops after)
    (first : ∀ i, MatchAt (front ++ (b :: '@' :: name) ++ after) i → front.length ≤ i) :
    identifier.search (front ++ (b :: '@' :: name) ++ after) = some (front, b :: '@' :: name, after) := by
  refine searchOf (longestOf ((identifierIff _).mpr ⟨b, name, rfl, other, nonempty, letters⟩) ?_) (by simp) ?_
  · intro w before member
    obtain ⟨c, more, rfl, -, -, all⟩ := (identifierIff w).mp member
    have inside := (List.cons_prefix_cons.mp (List.cons_prefix_cons.mp before).2).2
    simpa using nameEnds letters stops inside all
  · intro p c rest same
    have nothing := noMatch (front ++ (b :: '@' :: name) ++ after) p.length fun found => by
      have bound := first p.length found
      rw [same] at bound
      simp at bound
    simpa [same] using nothing

theorem searchSome {text : Text} (some_ : ∃ i, MatchAt text i) : ∃ front b name after,
    text = front ++ (b :: '@' :: name) ++ after ∧ b ≠ '\\' ∧ name ≠ [] ∧ (∀ d ∈ name, nameLetter d) ∧ Stops after ∧
      (∀ i, MatchAt text i → front.length ≤ i) ∧
      identifier.search text = some (front, b :: '@' :: name, after) := by
  classical
  obtain ⟨c, n, first, other, second, third, letter⟩ := Nat.find_spec some_
  have least (i : ℕ) (found : MatchAt text i) : Nat.find some_ ≤ i := Nat.find_min' some_ found
  generalize Nat.find some_ = k at *
  have inside : k + 2 < text.length := (List.getElem?_eq_some_iff.mp third).1
  have tail : text.drop k = c :: '@' :: text.drop (k + 2) := by
    rw [List.drop_eq_getElem_cons (by omega), List.drop_eq_getElem_cons (by omega : k + 1 < text.length)]
    rw [List.getElem?_eq_getElem (by omega)] at first second
    rw [Option.some.inj first, Option.some.inj second]
  have split : text.drop (k + 2) = (text.drop (k + 2)).takeWhile nameLetter ++
      (text.drop (k + 2)).dropWhile nameLetter := List.takeWhile_append_dropWhile.symm
  have whole : text = text.take k ++ (c :: '@' :: (text.drop (k + 2)).takeWhile nameLetter) ++
      (text.drop (k + 2)).dropWhile nameLetter := by
    rw [List.append_assoc, List.cons_append, List.cons_append, ← split, ← tail, List.take_append_drop]
  have nonempty : (text.drop (k + 2)).takeWhile nameLetter ≠ [] := by
    rw [List.drop_eq_getElem_cons inside, List.takeWhile_cons, if_pos]
    · simp
    · rw [List.getElem?_eq_getElem inside] at third
      rwa [Option.some.inj third]
  have length : (text.take k).length = k := List.length_take_of_le (by omega)
  have bound (i : ℕ) (found : MatchAt text i) : (text.take k).length ≤ i := by
    rw [length]
    exact least i found
  refine ⟨_, c, _, _, whole, other, nonempty, takenLetters _, droppedStops _, bound, ?_⟩
  have found := searchFound (text.take k) other nonempty (takenLetters _) (droppedStops _) (by rwa [← whole])
  rwa [← whole] at found

end Matching

section Records
open PgsRecord
variable {ctype : Ctype} {fuel : ℕ}

theorem narrowed {n : ℕ} (small : n < 65536) : (UInt16.ofNat n).toNat = n := by
  rw [UInt16.toNat_ofNat']
  exact Nat.mod_eq_of_lt small

theorem insertInto {r : PgsRecord} {done : List (List Scalar)} {cells : List Scalar} {i : ℕ} (v : Scalar)
    (shape : r.lines ++ List.replicate (done.length + 1 - r.lines.length) (blankLine r.columns.length) =
      done ++ [cells])
    (fits : done.length < 65535) (inside : i < r.columns.length) (enough : done.length + 1 - r.lines.length < fuel) :
    ∃ r', r.insert fuel (UInt16.ofNat done.length) (UInt16.ofNat i) v = some (true, r') ∧ r'.columns = r.columns ∧
      r'.lines = done ++ [cells.set i v] := by
  have line : (UInt16.ofNat done.length).toNat = done.length := narrowed (by omega)
  have column : (UInt16.ofNat i).toNat = i := narrowed (inside.trans r.columnsFit)
  obtain ⟨grown, ok⟩ := growEnds r (UInt16.ofNat done.length) (by omega) (by rwa [line])
  obtain ⟨-, columns, lines⟩ := growShape ok
  rw [line, shape] at lines
  refine ⟨grown.setCell done.length i v, ?_, columns, ?_⟩
  · have not : ¬ r.countColumns ≤ UInt16.ofNat i := by
      rw [UInt16.le_iff_toNat_le, countColumnsNat, column]
      omega
    unfold PgsRecord.insert
    rw [ok, Option.map_some, if_neg not, line, column]
  · rw [setCellLines, lines]
    simp [List.modify_eq_set]

theorem cellsInserted (two : 2 ≤ fuel) (cells : List Scalar) {r : PgsRecord} {done : List (List Scalar)}
    {now : List Scalar} {i : ℕ} (lines : r.lines = done ++ [now]) (width : i + cells.length = r.columns.length)
    (fits : done.length < 65535) : ∃ r', insertCells fuel (UInt16.ofNat done.length) i cells r = some r' ∧
      r'.columns = r.columns ∧ r'.lines = done ++ [now.take i ++ cells] := by
  have wide : now.length = r.columns.length := r.square now (by simp [lines])
  induction cells generalizing r now i with
  | nil =>
    refine ⟨r, rfl, rfl, ?_⟩
    rw [lines, List.take_of_length_le (by simp at width; omega), List.append_nil]
  | cons cell cells ih =>
    rw [List.length_cons] at width
    have shape : r.lines ++ List.replicate (done.length + 1 - r.lines.length) (blankLine r.columns.length) =
        done ++ [now] := by simp [lines]
    obtain ⟨r', ok, columns, lines'⟩ := insertInto cell shape fits (by omega : i < r.columns.length)
      (by simp [lines]; omega : done.length + 1 - r.lines.length < fuel)
    obtain ⟨last, rest, columns', shape'⟩ := ih (i := i + 1) lines' (by rw [columns]; omega)
      (by simpa [columns] using wide)
    refine ⟨last, ?_, columns'.trans columns, ?_⟩
    · rw [insertCells, ok]
      exact rest
    · have here : i < (now.set i cell).length := by
        rw [List.length_set]
        omega
      rw [shape', List.take_succ_eq_append_getElem here, List.getElem_set_self, List.take_set_of_le le_rfl,
        List.append_assoc]
      rfl

theorem rowInserted (two : 2 ≤ fuel) {cells : List Scalar} {r : PgsRecord} (nonempty : cells ≠ [])
    (width : cells.length = r.columns.length) (fits : r.lines.length < 65535) :
    ∃ r', insertCells fuel (UInt16.ofNat r.lines.length) 0 cells r = some r' ∧ r'.columns = r.columns ∧
      r'.lines = r.lines ++ [cells] := by
  obtain ⟨cell, cells, rfl⟩ := List.exists_cons_of_ne_nil nonempty
  rw [List.length_cons] at width
  have shape : r.lines ++ List.replicate (r.lines.length + 1 - r.lines.length) (blankLine r.columns.length) =
      r.lines ++ [blankLine r.columns.length] := by simp
  obtain ⟨r', ok, columns, lines⟩ := insertInto cell shape fits (by omega : 0 < r.columns.length)
    (by omega : r.lines.length + 1 - r.lines.length < fuel)
  obtain ⟨last, rest, columns', lines'⟩ := cellsInserted two cells lines (by rw [columns]; omega : 1 + cells.length = _)
    fits
  refine ⟨last, ?_, columns'.trans columns, ?_⟩
  · rw [insertCells, ok]
    exact rest
  · rw [lines', blankLine, ← width]
    simp [List.replicate_succ]

variable {types : List Text} {rows : List (List Text)}

theorem rowsInserted (ctype : Ctype) (two : 2 ≤ fuel) {r : PgsRecord} (wide : types ≠ [])
    (columns : types.length = r.columns.length)
    (square : ∀ row ∈ rows, row.length = types.length) (fits : r.lines.length + rows.length < 65536) :
    ∃ r', insertRows ctype fuel types r.lines.length rows r = some r' ∧ r'.columns = r.columns ∧
      r'.lines = r.lines ++ rows.map (List.zipWith (cellOf ctype) types) := by
  induction rows generalizing r with
  | nil => exact ⟨r, rfl, rfl, by simp⟩
  | cons row rows ih =>
    have long := square row List.mem_cons_self
    rw [List.length_cons] at fits
    have some_ : List.zipWith (cellOf ctype) types row ≠ [] := by
      refine List.ne_nil_of_length_pos ?_
      rw [List.length_zipWith, long, min_self]
      exact List.length_pos_iff.mpr wide
    obtain ⟨r', ok, columns', lines⟩ := rowInserted (r := r) two some_ (by simp [long, columns]) (by omega)
    have length : r.lines.length + 1 = r'.lines.length := by simp [lines]
    obtain ⟨last, rest, columns'', lines'⟩ := ih (r := r') (columns.trans (by rw [columns']))
      (fun row mem => square row (List.mem_cons_of_mem _ mem)) (by omega)
    refine ⟨last, ?_, columns''.trans columns', ?_⟩
    · rw [insertRows, ok, Option.bind_some, length]
      exact rest
    · rw [lines', lines]
      simp

theorem insertTurns {r : PgsRecord} {column : USHORT} {v : Scalar} {out : Bool × PgsRecord}
    (ok : r.insert fuel (UInt16.ofNat r.lines.length) column v = some out) : 2 ≤ fuel := by
  obtain ⟨grown, found, -⟩ := Option.map_eq_some_iff.mp ok
  obtain ⟨turns, -⟩ := growLinesOf found
  match fuel with
  | 0 => simp [growLines] at turns
  | 1 =>
    have below : r.countLines ≤ UInt16.ofNat r.lines.length := UInt16.le_iff_toNat_le.mpr le_rfl
    rw [growLines, if_pos below, growLines] at turns
    contradiction
  | fuel + 2 => exact Nat.le_add_left 2 fuel

theorem rowsStuck (ctype : Ctype) (fuel : ℕ) {r : PgsRecord} (wide : types ≠ [])
    (columns : types.length = r.columns.length)
    (square : ∀ row ∈ rows, row.length = types.length) (many : 65536 ≤ r.lines.length + rows.length) :
    insertRows ctype fuel types r.lines.length rows r = none := by
  induction rows generalizing r with
  | nil =>
    have fits := r.linesFit
    rw [List.length_nil] at many
    omega
  | cons row rows ih =>
    have long := square row List.mem_cons_self
    have fits := r.linesFit
    rw [List.length_cons] at many
    obtain ⟨cell, cells, shape⟩ : ∃ cell cells, List.zipWith (cellOf ctype) types row = cell :: cells := by
      refine List.exists_cons_of_ne_nil (List.ne_nil_of_length_pos ?_)
      rw [List.length_zipWith, long, min_self]
      exact List.length_pos_iff.mpr wide
    rw [insertRows, shape]
    cases ok : insertCells fuel (UInt16.ofNat r.lines.length) 0 (cell :: cells) r with
    | none => rfl
    | some r' =>
      obtain ⟨out, first, -⟩ := Option.bind_eq_some_iff.mp ok
      have free : r.lines.length < 65535 := by
        have bound := insertFits first
        rwa [narrowed r.linesFit] at bound
      have width : (cell :: cells).length = r.columns.length := by
        rw [← shape, List.length_zipWith, long, min_self, columns]
      obtain ⟨r'', ok', columns', lines⟩ := rowInserted (insertTurns first) (List.cons_ne_nil cell cells) width free
      obtain rfl := Option.some.inj (ok.symm.trans ok')
      have length : r.lines.length + 1 = r'.lines.length := by simp [lines]
      rw [Option.bind_some, length]
      exact ih (columns.trans (by rw [columns'])) (fun row mem => square row (List.mem_cons_of_mem _ mem)) (by omega)

def named (ctype : Ctype) (name : Text) : Text := (ctype.strip name).map ctype.lower

theorem nameSet (ctype : Ctype) {r : PgsRecord} {i : ℕ} (inside : i < r.columns.length) (name : Text) :
    ((r.setColumnName ctype (UInt16.ofNat i) name).2.columns = r.columns ∧
      (named ctype name ∈ r.columns ∨ named ctype name = [])) ∨
    ((r.setColumnName ctype (UInt16.ofNat i) name).2.columns = r.columns.set i (named ctype name) ∧
      named ctype name ∉ r.columns ∧ named ctype name ≠ []) := by
  have column : (UInt16.ofNat i).toNat = i := narrowed (inside.trans r.columnsFit)
  have not : ¬ r.countColumns ≤ UInt16.ofNat i := by
    rw [UInt16.le_iff_toNat_le, countColumnsNat, column]
    omega
  unfold setColumnName
  dsimp only
  split_ifs with refused
  · exact .inl ⟨rfl, refused.resolve_left not⟩
  · obtain ⟨-, fresh, filled⟩ := not_or.mp refused |>.imp_right not_or.mp
    exact .inr ⟨congrArg (fun k => r.columns.set k (named ctype name)) column, fresh, filled⟩

theorem nameLength (r : PgsRecord) (column : USHORT) (name : Text) :
    (r.setColumnName ctype column name).2.columns.length = r.columns.length := by
  unfold setColumnName
  dsimp only
  split_ifs <;> simp

theorem namesBefore (names : List Text) {r : PgsRecord} {i k : ℕ} {text : Text}
    (bound : i + names.length ≤ r.columns.length)
    (here : (PgsStatements.setColumnNames ctype i names r).columns[k]? = some text) :
    r.columns[k]? = some text ∨ ∃ m name, k = i + m ∧ names[m]? = some name ∧ named ctype name = text := by
  induction names generalizing r i with
  | nil => exact .inl here
  | cons name names ih =>
    rw [List.length_cons] at bound
    rcases ih (by rw [nameLength]; omega) here with before | ⟨m, other, rfl, place, same⟩
    · rcases nameSet ctype (by omega : i < r.columns.length) name with ⟨kept, -⟩ | ⟨set_, -, -⟩
      · exact .inl (kept ▸ before)
      · rw [set_, List.getElem?_set] at before
        split_ifs at before with at_ inside
        · exact .inr ⟨0, name, at_.symm, rfl, Option.some.inj before⟩
        · exact .inl before
    · exact .inr ⟨m + 1, other, by omega, place, same⟩

theorem namesKept (names : List Text) {r : PgsRecord} {i k : ℕ} (before : k < i)
    (bound : i + names.length ≤ r.columns.length) :
    (PgsStatements.setColumnNames ctype i names r).columns[k]? = r.columns[k]? := by
  induction names generalizing r i with
  | nil => rfl
  | cons name names ih =>
    rw [List.length_cons] at bound
    refine (ih (by omega : k < i + 1) (by rw [nameLength]; omega)).trans ?_
    rcases nameSet ctype (by omega : i < r.columns.length) name with ⟨kept, -⟩ | ⟨set_, -, -⟩
    · rw [kept]
    · rw [set_, List.getElem?_set_ne (by omega)]

theorem nameFirst (names : List Text) {r : PgsRecord} {i m : ℕ} {name : Text} (filled : named ctype name ≠ [])
    (bound : i + names.length ≤ r.columns.length) (fresh : named ctype name ∉ r.columns)
    (here : (names[m]?).map (named ctype) = some (named ctype name))
    (first : ∀ j < m, (names[j]?).map (named ctype) ≠ some (named ctype name)) :
    (PgsStatements.setColumnNames ctype i names r).columns[i + m]? = some (named ctype name) := by
  induction names generalizing r i m with
  | nil => simp at here
  | cons head names ih =>
    rw [List.length_cons] at bound
    have inside : i < r.columns.length := by omega
    rcases nameSet ctype inside head with ⟨kept, refused⟩ | ⟨set_, -, -⟩
    · cases m with
      | zero =>
        have same : named ctype head = named ctype name := Option.some.inj here
        rw [same] at refused
        exact absurd (refused.resolve_right filled) fresh
      | succ m =>
        have next := ih (i := i + 1) (m := m) (by rw [nameLength]; omega) (kept ▸ fresh) here
          fun j less => first (j + 1) (by omega)
        rwa [show i + (m + 1) = i + 1 + m by omega]
    · cases m with
      | zero =>
        have same : named ctype head = named ctype name := Option.some.inj here
        refine (namesKept names (Nat.lt_succ_self i) (by rw [nameLength]; omega)).trans ?_
        rw [set_, same, List.getElem?_set_self inside]
      | succ m =>
        have other : named ctype head ≠ named ctype name := fun same => first 0 (by omega) (congrArg some same)
        have fresh' : named ctype name ∉ (r.setColumnName ctype (UInt16.ofNat i) head).2.columns := by
          rw [set_]
          intro mem
          rcases List.mem_or_eq_of_mem_set mem with mem | same
          · exact fresh mem
          · exact other same.symm
        have next := ih (i := i + 1) (m := m) (by rw [nameLength]; omega) fresh' here
          fun j less => first (j + 1) (by omega)
        rwa [show i + (m + 1) = i + 1 + m by omega]

theorem getColumnFirst {r : PgsRecord} {name : Text} {i : ℕ} (filled : named ctype name ≠ [])
    (here : r.columns[i]? = some (named ctype name)) (first : ∀ j < i, r.columns[j]? ≠ some (named ctype name)) :
    r.getColumn ctype name = UInt16.ofNat i := by
  obtain ⟨inside, same⟩ := List.getElem?_eq_some_iff.mp here
  have index : r.columns.idxOf (named ctype name) = i := by
    refine (List.findIdx_eq inside).mpr ⟨by simp [same], fun j less => ?_⟩
    have other := first j less
    rw [List.getElem?_eq_getElem (less.trans inside)] at other
    simpa using fun same => other (congrArg some same)
  unfold getColumn
  dsimp only
  exact (if_neg filled).trans (congrArg UInt16.ofNat index)

theorem getColumnNone {r : PgsRecord} {name : Text} (none_ : named ctype name ∉ r.columns) :
    r.getColumn ctype name = r.countColumns := by
  unfold getColumn
  dsimp only
  split_ifs
  · rfl
  · exact congrArg UInt16.ofNat (List.idxOf_eq_length none_)

def FirstNamed (ctype : Ctype) (names : List Text) (name : Text) (i : ℕ) : Prop :=
  (names[i]?).map (named ctype) = some (named ctype name) ∧
    ∀ j < i, (names[j]?).map (named ctype) ≠ some (named ctype name)

theorem columnsNamed (names : List Text) (few : names.length < 65536) {r : PgsRecord} {name : Text}
    (filled : named ctype name ≠ [])
    (columns : r.columns = (PgsStatements.setColumnNames ctype 0 names (.create (UInt16.ofNat names.length))).columns) :
    (∀ i, FirstNamed ctype names name i → r.getColumn ctype name = UInt16.ofNat i) ∧
      ((∀ other ∈ names, named ctype other ≠ named ctype name) → r.getColumn ctype name = r.countColumns) := by
  have blank : (PgsRecord.create (UInt16.ofNat names.length)).columns = List.replicate names.length [] :=
    congrArg (fun k => List.replicate k []) (narrowed few)
  have bound : 0 + names.length ≤ (PgsRecord.create (UInt16.ofNat names.length)).columns.length := by simp [blank]
  have fresh : named ctype name ∉ (PgsRecord.create (UInt16.ofNat names.length)).columns := by
    rw [blank]
    exact fun mem => filled (List.eq_of_mem_replicate mem)
  have own (k : ℕ) (here : r.columns[k]? = some (named ctype name)) :
      (names[k]?).map (named ctype) = some (named ctype name) := by
    rw [columns] at here
    rcases namesBefore names bound here with before | ⟨m, other, rfl, place, same⟩
    · exact absurd (List.mem_of_getElem? before) fresh
    · rw [Nat.zero_add, place, Option.map_some, same]
  refine ⟨fun i ⟨here, first⟩ => getColumnFirst filled ?_ fun j less found => first j less (own j found),
    fun none_ => getColumnNone fun mem => ?_⟩
  · have set_ := nameFirst names filled bound fresh here first
    rwa [Nat.zero_add, ← columns] at set_
  · obtain ⟨k, inside, same⟩ := List.mem_iff_getElem.mp mem
    obtain ⟨other, place, same⟩ := Option.map_eq_some_iff.mp
      (own k (by rw [List.getElem?_eq_getElem inside, same]))
    exact none_ other (List.mem_of_getElem? place) same

theorem namesLength (names : List Text) (r : PgsRecord) (i : ℕ) :
    (PgsStatements.setColumnNames ctype i names r).columns.length = r.columns.length := by
  induction names generalizing r i with
  | nil => rfl
  | cons name names ih => exact (ih _ _).trans (nameLength r _ name)

theorem namesLines (ctype : Ctype) (names : List Text) (r : PgsRecord) (i : ℕ) :
    (PgsStatements.setColumnNames ctype i names r).lines = r.lines := by
  induction names generalizing r i with
  | nil => rfl
  | cons name names ih =>
    refine (ih _ _).trans ?_
    unfold setColumnName
    dsimp only
    split_ifs <;> rfl

theorem executedRecord (ctype : Ctype) (set : DataSet) (wide : set.columns ≠ []) :
    (set.rows.length < 65536 → ∃ r, (∀ fuel, 2 ≤ fuel → set.record ctype fuel = some r) ∧
      r.lines = set.rows.map (List.zipWith (cellOf ctype) (set.columns.map Prod.snd)) ∧
      ∀ name, named ctype name ≠ [] →
        (∀ i, FirstNamed ctype (set.columns.map Prod.fst) name i → r.getColumn ctype name = UInt16.ofNat i) ∧
        ((∀ column ∈ set.columns, named ctype column.1 ≠ named ctype name) →
          r.getColumn ctype name = r.countColumns)) ∧
    (65536 ≤ set.rows.length → Fuelled.Never fun fuel => set.record ctype fuel) := by
  have few : (set.columns.map Prod.fst).length < 65536 := by simpa using set.few
  have start := namesLines ctype (set.columns.map Prod.fst) (.create (UInt16.ofNat set.columns.length)) 0
  have types : (set.columns.map Prod.snd).length = (PgsStatements.setColumnNames ctype 0 (set.columns.map Prod.fst)
      (.create (UInt16.ofNat set.columns.length))).columns.length := by
    rw [namesLength, List.length_map, create, List.length_replicate, narrowed set.few]
  have some_ : set.columns.map Prod.snd ≠ [] := by simpa using wide
  have square : ∀ row ∈ set.rows, row.length = (set.columns.map Prod.snd).length := by simpa using set.square
  have zero : (PgsStatements.setColumnNames ctype 0 (set.columns.map Prod.fst)
      (.create (UInt16.ofNat set.columns.length))).lines.length = 0 := by rw [start]; rfl
  refine ⟨fun fits => ?_, fun many fuel => ?_⟩
  · have each (fuel : ℕ) (two : 2 ≤ fuel) := rowsInserted ctype two some_ types square (by omega)
    rw [zero, start] at each
    obtain ⟨r, ok, columns, lines⟩ := each 2 le_rfl
    refine ⟨r, fun fuel two => ?_, lines, fun name filled => ?_⟩
    · obtain ⟨r', ok', columns', lines'⟩ := each fuel two
      have same : r' = r := by
        obtain ⟨columns₁, lines₁, _, _, _⟩ := r
        obtain ⟨columns₂, lines₂, _, _, _⟩ := r'
        obtain rfl : columns₂ = columns₁ := columns'.trans columns.symm
        obtain rfl : lines₂ = lines₁ := lines'.trans lines.symm
        rfl
      exact ok'.trans (congrArg some same)
    · have found := columnsNamed (set.columns.map Prod.fst) few filled (by simpa using columns)
      exact ⟨found.1, fun none_ => found.2 (by simpa using none_)⟩
  · have stuck := rowsStuck ctype fuel some_ types square (by omega)
    rwa [zero] at stuck

def oneRow : DataSet where
  columns := [(['n'], "integer".toList), (['N'], "numeric".toList)]
  rows := [[['7'], ['7']]]
  square := by simp
  few := by simp

theorem oneRowExecuted : ∃ r, oneRow.record Ctype.plain 2 = some r ∧
    r.lines = [[.pgsNumber ['7'] false, .pgsString ['7']]] ∧ r.getColumn Ctype.plain ['N'] = 0 := by
  obtain ⟨r, ok, lines, columns⟩ := (executedRecord Ctype.plain oneRow (by simp [oneRow])).1 (by simp [oneRow])
  refine ⟨r, ok 2 le_rfl, lines.trans rfl, (columns ['N'] (by decide)).1 0 ⟨rfl, by simp⟩⟩

end Records

end PgsExecute
end PgAdmin.PgsObjects
