import Mathlib.Data.List.Basic
import Mathlib.Data.List.Infix

/-! Cells of rows, written with a separator between the cells and a line end after the row, and read
again. A cell in quotes has its own quotes doubled and is always read as it was; one without quotes
is read as it was exactly if no separator and no line end is in it and no quote is its first sign. -/
namespace CsvDecoding
variable {α : Type} [DecidableEq α]

/- The line end is a first sign, met once in it, and possibly more signs. -/
structure Format (α : Type) where
  separator : α
  quote : α
  first : α
  more : List α
  differ : separator ≠ quote
  separates : separator ∉ first :: more
  quotes : quote ∉ first :: more
  once : first ∉ more

def Format.lineEnd (format : Format α) : List α := format.first :: format.more

structure Cell (α : Type) where
  quoted : Bool
  text : List α

def double (quote : α) (text : List α) : List α :=
  text.flatMap fun a => if a = quote then [quote, quote] else [a]

def Cell.written (format : Format α) (cell : Cell α) : List α :=
  if cell.quoted then format.quote :: double format.quote cell.text ++ [format.quote] else cell.text

def written (format : Format α) (row : List (Cell α)) : List α :=
  [format.separator].intercalate (row.map (Cell.written format)) ++ format.lineEnd

def readPlain (format : Format α) : List α → List α × List α
  | [] => ([], [])
  | a :: text =>
    if a = format.separator ∨ format.lineEnd <+: a :: text then ([], a :: text)
    else (a :: (readPlain format text).1, (readPlain format text).2)

def readQuoted (quote : α) : List α → Option (List α × List α)
  | [] => none
  | [a] => if a = quote then some ([], []) else none
  | a :: b :: text =>
    if a = quote then
      if b = quote then (readQuoted quote text).map fun read => (quote :: read.1, read.2)
      else some ([], b :: text)
    else (readQuoted quote (b :: text)).map fun read => (a :: read.1, read.2)

def readCell (format : Format α) : List α → Option (List α × List α)
  | [] => some ([], [])
  | a :: text =>
    if a = format.quote then readQuoted format.quote text else some (readPlain format (a :: text))

def readRow (format : Format α) : ℕ → List α → Option (List (List α) × List α)
  | 0, _ => none
  | fuel + 1, text => do
    let (cell, rest) ← readCell format text
    if format.lineEnd <+: rest then some ([cell], rest.drop format.lineEnd.length)
    else match rest with
      | [] => some ([cell], [])
      | a :: rest =>
        if a = format.separator then (readRow format fuel rest).map fun row => (cell :: row.1, row.2)
        else none

def decodeRows (format : Format α) : ℕ → List α → Option (List (List (List α)))
  | _, [] => some []
  | 0, _ :: _ => none
  | fuel + 1, a :: text => do
    let (row, rest) ← readRow format ((a :: text).length + 1) (a :: text)
    (decodeRows format fuel rest).map (row :: ·)

def decode (format : Format α) (text : List α) : Option (List (List (List α))) :=
  decodeRows format text.length text

/- A text with nothing in it that a reader takes for more. -/
def Plain (format : Format α) (text : List α) : Prop :=
  format.separator ∉ text ∧ ¬ format.lineEnd <:+: text ∧ text.head? ≠ some format.quote

instance plainDecidable (format : Format α) (text : List α) : Decidable (Plain format text) :=
  inferInstanceAs (Decidable (_ ∧ _ ∧ _))

/- A cell that is read as it was. -/
def Readable (format : Format α) (cell : Cell α) : Prop := cell.quoted = true ∨ Plain format cell.text

/- What follows a cell. -/
def Follows (format : Format α) (rest : List α) : Prop :=
  (∃ more, rest = format.separator :: more) ∨ format.lineEnd <+: rest

section
omit [DecidableEq α]
variable {format : Format α} {text rest : List α}

theorem followsHead (follows : Follows format rest) :
    ∃ a more, rest = a :: more ∧ a ≠ format.quote ∧ (a = format.separator ∨ a = format.first) := by
  rcases follows with ⟨more, rfl⟩ | ⟨more, rfl⟩
  · exact ⟨_, more, rfl, format.differ, .inl rfl⟩
  · exact ⟨_, _, rfl, fun same => format.quotes (same ▸ List.mem_cons_self), .inr rfl⟩

theorem lineEndWithin (follows : Follows format rest) (nonempty : text ≠ [])
    (starts : format.lineEnd <+: text ++ rest) : format.lineEnd <+: text := by
  rcases List.prefix_or_prefix_of_prefix starts (List.prefix_append text rest) with within | beyond
  · exact within
  obtain ⟨tail, whole⟩ := beyond
  obtain ⟨a, more, rfl, -, sign⟩ := followsHead follows
  rcases tail with _ | ⟨b, tail⟩
  · rw [← whole, List.append_nil]
  have goesOn : b :: tail <+: a :: more := by
    rw [← whole] at starts
    exact (List.prefix_append_right_inj text).mp starts
  obtain ⟨c, text, rfl⟩ := List.exists_cons_of_ne_nil nonempty
  have later : text ++ b :: tail = format.more := (List.cons.inj whole).2
  have inside : a ∈ format.more := by
    rw [← later, ← (List.cons_prefix_cons.mp goesOn).1]
    simp
  rcases sign with rfl | rfl
  · exact absurd (List.mem_cons_of_mem _ inside) format.separates
  · exact absurd inside format.once

theorem followsNotNil (follows : Follows format rest) : rest ≠ [] := by
  obtain ⟨a, more, rfl, -⟩ := followsHead follows
  exact List.cons_ne_nil a more

end

section Reading
variable {format : Format α} {text rest read : List α}

theorem plainPrefix (format : Format α) (text : List α) :
    (readPlain format text).1 ++ (readPlain format text).2 = text := by
  induction text with
  | nil => rfl
  | cons a text ih =>
    rw [readPlain]
    split
    · rfl
    · rw [List.cons_append, ih]

theorem plainReads (follows : Follows format rest) :
    (readPlain format (text ++ rest)).1 = text ↔
      format.separator ∉ text ∧ ¬ format.lineEnd <:+: text := by
  induction text with
  | nil =>
    have notInfix : ¬ format.lineEnd <:+: [] := fun within => by
      simpa [Format.lineEnd] using List.eq_nil_of_infix_nil within
    refine iff_of_true ?_ ⟨List.not_mem_nil, notInfix⟩
    rcases follows with ⟨more, rfl⟩ | starts
    · rw [List.nil_append, readPlain, if_pos (.inl rfl)]
    · obtain ⟨a, more, rfl⟩ := List.exists_cons_of_ne_nil (followsNotNil (.inr starts))
      rw [List.nil_append, readPlain, if_pos (.inr starts)]
  | cons a text ih =>
    rw [List.cons_append, readPlain]
    by_cases ends : a = format.separator ∨ format.lineEnd <+: a :: (text ++ rest)
    · rw [if_pos ends]
      refine iff_of_false (fun none => nomatch none) fun ⟨noSeparator, noLineEnd⟩ => ?_
      rcases ends with rfl | starts
      · exact noSeparator List.mem_cons_self
      · exact noLineEnd (lineEndWithin follows (List.cons_ne_nil a text) starts).isInfix
    · rw [if_neg ends, List.cons_inj_right, ih]
      obtain ⟨noSeparator, noLineEnd⟩ := not_or.mp ends
      have noStart : ¬ format.lineEnd <+: a :: text := fun starts =>
        noLineEnd (starts.trans (List.prefix_append (a :: text) rest))
      rw [List.infix_cons_iff, List.mem_cons]
      constructor
      · rintro ⟨noMember, noInfix⟩
        exact ⟨fun member => member.elim (noSeparator ∘ Eq.symm) noMember,
          fun within => within.elim noStart noInfix⟩
      · rintro ⟨noMember, noInfix⟩
        exact ⟨fun member => noMember (.inr member), fun within => noInfix (.inr within)⟩

theorem plainLeaves (reads : (readPlain format (text ++ rest)).1 = text) :
    readPlain format (text ++ rest) = (text, rest) := by
  have whole := plainPrefix format (text ++ rest)
  rw [reads] at whole
  exact Prod.ext reads (List.append_cancel_left whole)

theorem quotedReads (other : rest.head? ≠ some format.quote) :
    readQuoted format.quote (double format.quote text ++ format.quote :: rest) = some (text, rest) := by
  induction text with
  | nil =>
    cases rest with
    | nil => simp [double, readQuoted]
    | cons a rest =>
      have differs : a ≠ format.quote := fun same => other (by rw [same]; rfl)
      simp [double, readQuoted, differs]
  | cons a text ih =>
    rw [double, List.flatMap_cons, ← double]
    by_cases same : a = format.quote
    · subst same
      simp only [if_pos, List.cons_append, List.nil_append, readQuoted, ih, Option.map_some]
    · rw [if_neg same, List.cons_append, List.cons_append, List.nil_append]
      obtain ⟨b, more, shape⟩ : ∃ b more, double format.quote text ++ format.quote :: rest = b :: more :=
        List.exists_cons_of_ne_nil (by simp)
      rw [shape] at ih ⊢
      rw [readQuoted, if_neg same, ih]
      rfl

theorem leadingQuotes {quote : α} (found : readQuoted quote text = some (read, rest)) :
    2 * (read.takeWhile (· = quote)).length ≤ (text.takeWhile (· = quote)).length := by
  induction text using readQuoted.induct quote generalizing read rest with
  | case1 => exact nomatch found
  | case2 =>
    rw [readQuoted, if_pos rfl] at found
    cases found
    exact Nat.zero_le _
  | case3 a differs =>
    rw [readQuoted, if_neg differs] at found
    exact nomatch found
  | case4 text ih =>
    rw [readQuoted, if_pos rfl, if_pos rfl] at found
    obtain ⟨⟨inner, left⟩, next, same⟩ := Option.map_eq_some_iff.mp found
    cases same
    have fewer := ih next
    simp only [List.takeWhile_cons, decide_true, if_true, List.length_cons]
    omega
  | case5 b text differs =>
    rw [readQuoted, if_pos rfl, if_neg differs] at found
    cases found
    exact Nat.zero_le _
  | case6 a b text differs ih =>
    rw [readQuoted, if_neg differs] at found
    obtain ⟨⟨inner, left⟩, next, same⟩ := Option.map_eq_some_iff.mp found
    cases same
    simp [differs]

theorem quoteFirst (follows : Follows format rest) (left : List α) :
    readQuoted format.quote (text ++ rest) ≠ some (format.quote :: text, left) := by
  intro found
  have twice := leadingQuotes found
  obtain ⟨a, more, rfl, differs, -⟩ := followsHead follows
  have same : ((text ++ a :: more).takeWhile (· = format.quote)).length =
      (text.takeWhile (· = format.quote)).length := by
    rw [List.takeWhile_append]
    split
    · rename_i all
      rw [List.takeWhile_cons_of_neg (by simpa using differs), List.append_nil, all]
    · rfl
  rw [same, List.takeWhile_cons_of_pos (by simp), List.length_cons] at twice
  omega

end Reading

section Rows
variable {format : Format α} {rest left read : List α} {cell : Cell α} {row : List (Cell α)} {fuel : ℕ}

theorem quotedCell (quoted : cell.quoted = true) (rest : List α) :
    cell.written format ++ rest =
      format.quote :: (double format.quote cell.text ++ format.quote :: rest) := by
  simp [Cell.written, quoted]

theorem plainCell (plain : cell.quoted = false) : cell.written format = cell.text := by
  simp [Cell.written, plain]

omit [DecidableEq α] in
theorem otherHead (follows : Follows format rest) (text : List α)
    (noQuote : text.head? ≠ some format.quote) : (text ++ rest).head? ≠ some format.quote := by
  obtain ⟨a, more, rfl, differs, -⟩ := followsHead follows
  cases text with
  | nil => simpa using differs
  | cons b text => exact noQuote

theorem readPlainCell (follows : Follows format rest)
    (noQuote : cell.text.head? ≠ some format.quote) :
    readCell format (cell.text ++ rest) = some (readPlain format (cell.text ++ rest)) := by
  have other := otherHead follows cell.text noQuote
  obtain ⟨a, text, shape⟩ := List.exists_cons_of_ne_nil
    (List.append_ne_nil_of_right_ne_nil cell.text (followsNotNil follows))
  rw [shape] at other ⊢
  rw [readCell, if_neg fun same => other (by rw [same]; rfl)]

theorem cellReads (follows : Follows format rest) (readable : Readable format cell) :
    readCell format (cell.written format ++ rest) = some (cell.text, rest) := by
  cases quoted : cell.quoted with
  | true =>
    have other : rest.head? ≠ some format.quote := otherHead follows [] fun none => nomatch none
    rw [quotedCell quoted, readCell, if_pos rfl, quotedReads other]
  | false =>
    rcases readable with inQuotes | ⟨noSeparator, noLineEnd, noQuote⟩
    · exact absurd (quoted.symm.trans inQuotes) (by decide)
    · rw [plainCell quoted, readPlainCell follows noQuote,
        plainLeaves ((plainReads follows).mpr ⟨noSeparator, noLineEnd⟩)]

theorem readableOfRead (follows : Follows format rest)
    (found : readCell format (cell.written format ++ rest) = some (cell.text, left)) :
    Readable format cell := by
  cases quoted : cell.quoted with
  | true => exact .inl quoted
  | false =>
    rw [plainCell quoted] at found
    have noQuote : cell.text.head? ≠ some format.quote := fun starts => by
      obtain ⟨text, shape⟩ := List.head?_eq_some_iff.mp starts
      rw [shape, List.cons_append, readCell, if_pos rfl] at found
      exact quoteFirst follows left found
    rw [readPlainCell follows noQuote] at found
    have reads : (readPlain format (cell.text ++ rest)).1 = cell.text := by
      rw [Option.some.inj found]
    obtain ⟨noSeparator, noLineEnd⟩ := (plainReads follows).mp reads
    exact .inr ⟨noSeparator, noLineEnd, noQuote⟩

theorem writtenCons (format : Format α) (cell other : Cell α) (row : List (Cell α)) (rest : List α) :
    written format (cell :: other :: row) ++ rest =
      cell.written format ++ format.separator :: (written format (other :: row) ++ rest) := by
  simp [written, List.intercalate_cons_cons]

theorem writtenLast (cell : Cell α) (rest : List α) :
    written format [cell] ++ rest = cell.written format ++ (format.lineEnd ++ rest) := by
  simp [written]

theorem readRowLast {text : List α}
    (found : readCell format text = some (read, format.lineEnd ++ rest)) :
    readRow format (fuel + 1) text = some ([read], rest) := by
  rw [readRow, found]
  simp

theorem readRowNext {text : List α}
    (found : readCell format text = some (read, format.separator :: rest)) :
    readRow format (fuel + 1) text =
      (readRow format fuel rest).map fun row => (read :: row.1, row.2) := by
  have noEnd : ¬ format.lineEnd <+: format.separator :: rest := fun starts =>
    format.separates ((List.cons_prefix_cons.mp starts).1 ▸ List.mem_cons_self)
  rw [readRow, found]
  simp [noEnd]

theorem rowReads (nonempty : row ≠ []) (enough : row.length ≤ fuel)
    (readable : ∀ cell ∈ row, Readable format cell) (rest : List α) :
    readRow format fuel (written format row ++ rest) = some (row.map Cell.text, rest) := by
  induction row generalizing fuel with
  | nil => exact absurd rfl nonempty
  | cons cell row ih =>
    obtain ⟨this, others⟩ := List.forall_mem_cons.mp readable
    obtain ⟨fuel, rfl⟩ := Nat.exists_eq_succ_of_ne_zero (Nat.ne_zero_of_lt (Nat.lt_of_succ_le enough))
    cases row with
    | nil => rw [writtenLast, readRowLast (cellReads (.inr (List.prefix_append _ _)) this)]; rfl
    | cons other row =>
      rw [writtenCons, readRowNext (cellReads (.inl ⟨_, rfl⟩) this),
        ih (List.cons_ne_nil other row) (Nat.le_of_succ_le_succ enough) others]
      rfl

theorem readRowCell {text : List α} {cells : List (List α)}
    (found : readRow format fuel text = some (read :: cells, left)) :
    ∃ rest, readCell format text = some (read, rest) := by
  cases fuel with
  | zero => exact nomatch found
  | succ fuel =>
    rw [readRow] at found
    obtain ⟨⟨next, rest⟩, isNext, found⟩ := Option.bind_eq_some_iff.mp found
    refine ⟨rest, isNext.trans ?_⟩
    dsimp only at found
    split at found
    · cases found; rfl
    · cases rest with
      | nil => cases found; rfl
      | cons a rest =>
        dsimp only at found
        split at found
        · obtain ⟨more, -, same⟩ := Option.map_eq_some_iff.mp found
          cases same; rfl
        · exact nomatch found

theorem readableOfRow (found : readRow format fuel (written format row ++ rest) =
    some (row.map Cell.text, left)) : ∀ cell ∈ row, Readable format cell := by
  induction row generalizing fuel with
  | nil => exact fun cell member => nomatch member
  | cons cell row ih =>
    obtain ⟨after, isFirst⟩ := readRowCell found
    cases row with
    | nil =>
      rw [writtenLast] at isFirst
      exact List.forall_mem_singleton.mpr (readableOfRead (.inr (List.prefix_append _ _)) isFirst)
    | cons other row =>
      rw [writtenCons] at isFirst found
      have this := readableOfRead (.inl ⟨_, rfl⟩) isFirst
      cases fuel with
      | zero => exact nomatch found
      | succ fuel =>
        rw [readRowNext (cellReads (.inl ⟨_, rfl⟩) this)] at found
        obtain ⟨⟨others, remains⟩, next, same⟩ := Option.map_eq_some_iff.mp found
        cases same
        exact List.forall_mem_cons.mpr ⟨this, ih next⟩

end Rows

section Decoding
variable {format : Format α} {rows : List (List (Cell α))} {texts : List (List (List α))} {fuel : ℕ}

def encode (format : Format α) (rows : List (List (Cell α))) : List α := rows.flatMap (written format)

theorem writtenNonempty (format : Format α) (row : List (Cell α)) (rest : List α) :
    written format row ++ rest ≠ [] := by
  simp [written, Format.lineEnd]

theorem cellsLength (format : Format α) (row : List (Cell α)) : row.length ≤ (written format row).length := by
  induction row with
  | nil => exact Nat.zero_le _
  | cons cell row ih =>
    cases row with
    | nil =>
      simp only [written, Format.lineEnd, List.length_append, List.length_cons, List.length_nil]
      omega
    | cons other row =>
      have shape := writtenCons format cell other row []
      rw [List.append_nil, List.append_nil] at shape
      rw [shape]
      simp only [List.length_append, List.length_cons] at ih ⊢
      omega

theorem decodeRowsStep {text : List α} (nonempty : text ≠ []) :
    decodeRows format (fuel + 1) text = (readRow format (text.length + 1) text).bind fun read =>
      (decodeRows format fuel read.2).map (read.1 :: ·) := by
  cases text with
  | nil => exact absurd rfl nonempty
  | cons a text => rfl

theorem decodeRowsCons {row : List (Cell α)} (nonempty : row ≠ [])
    (readable : ∀ cell ∈ row, Readable format cell) (rest : List α) :
    decodeRows format (fuel + 1) (written format row ++ rest) =
      (decodeRows format fuel rest).map (row.map Cell.text :: ·) := by
  have enough : row.length ≤ (written format row ++ rest).length + 1 := by
    have cells := cellsLength format row
    rw [List.length_append]
    omega
  rw [decodeRowsStep (writtenNonempty format row rest), rowReads nonempty enough readable]
  rfl

theorem decodeRowsRow {text : List α} {cells : List (List α)}
    (found : decodeRows format fuel text = some (cells :: texts)) :
    ∃ left, readRow format (text.length + 1) text = some (cells, left) := by
  cases fuel with
  | zero => cases text <;> exact nomatch found
  | succ fuel =>
    cases text with
    | nil => exact nomatch found
    | cons a text =>
      rw [decodeRowsStep (List.cons_ne_nil a text)] at found
      obtain ⟨⟨row, left⟩, isRow, found⟩ := Option.bind_eq_some_iff.mp found
      obtain ⟨more, -, same⟩ := Option.map_eq_some_iff.mp found
      cases same
      exact ⟨left, isRow⟩

theorem decodes (enough : rows.length ≤ fuel) (nonempty : ∀ row ∈ rows, row ≠ [])
    (expected : List.Forall₂ (fun row cells => (∀ cell ∈ row, Readable format cell) ∨
      row.map Cell.text = cells) rows texts) :
    decodeRows format fuel (encode format rows) = some texts ↔
      rows.map (List.map Cell.text) = texts ∧ ∀ row ∈ rows, ∀ cell ∈ row, Readable format cell := by
  induction expected generalizing fuel with
  | nil => simp [encode, decodeRows]
  | @cons row cells rows texts this others ih =>
    obtain ⟨rowNonempty, othersNonempty⟩ := List.forall_mem_cons.mp nonempty
    obtain ⟨fuel, rfl⟩ := Nat.exists_eq_succ_of_ne_zero (Nat.ne_zero_of_lt (Nat.lt_of_succ_le enough))
    have more := ih (Nat.le_of_succ_le_succ enough) othersNonempty
    rw [encode, List.flatMap_cons, ← encode, List.map_cons, List.cons.injEq, List.forall_mem_cons]
    by_cases readable : ∀ cell ∈ row, Readable format cell
    · rw [decodeRowsCons rowNonempty readable, Option.map_eq_some_iff]
      constructor
      · rintro ⟨read, found, same⟩
        cases same
        obtain ⟨sameTexts, othersReadable⟩ := more.mp found
        exact ⟨⟨rfl, sameTexts⟩, readable, othersReadable⟩
      · rintro ⟨⟨rfl, sameTexts⟩, -, othersReadable⟩
        exact ⟨texts, more.mpr ⟨sameTexts, othersReadable⟩, rfl⟩
    · obtain rfl := this.resolve_left readable
      refine iff_of_false (fun found => ?_) fun found => readable found.2.1
      obtain ⟨left, isRow⟩ := decodeRowsRow found
      exact readable (readableOfRow isRow)

theorem encodeLength (rows : List (List (Cell α))) : rows.length ≤ (encode format rows).length := by
  induction rows with
  | nil => exact Nat.zero_le _
  | cons row rows ih =>
    have some := List.length_pos_iff.mpr (writtenNonempty format row [])
    rw [List.append_nil] at some
    simp only [encode, List.flatMap_cons, List.length_append, List.length_cons] at ih ⊢
    omega

theorem readRowNonempty {text left : List α} : readRow format fuel text ≠ some ([], left) := by
  intro found
  cases fuel with
  | zero => exact nomatch found
  | succ fuel =>
    rw [readRow] at found
    obtain ⟨⟨next, rest⟩, -, found⟩ := Option.bind_eq_some_iff.mp found
    dsimp only at found
    split at found
    · exact nomatch found
    · cases rest with
      | nil => exact nomatch found
      | cons a rest =>
        dsimp only at found
        split at found
        · obtain ⟨more, -, same⟩ := Option.map_eq_some_iff.mp found
          exact nomatch same
        · exact nomatch found

theorem decodesNoEmptyRow {text : List α} : decodeRows format fuel text ≠ some ([] :: texts) := by
  intro found
  obtain ⟨left, isRow⟩ := decodeRowsRow found
  exact readRowNonempty isRow

end Decoding
end CsvDecoding
