import PgAdmin.CellCodec

/-! The WHERE clause of a row. Its columns are those of the primary key, whatever columns were
dropped before them and whether or not the result has an oid. Its literals denote the values of
the row, but for two quotes, and for the empty string where the type is not text. -/
namespace PgAdmin.frmEditGrid
open PgsObjects (Text)
open SqlLiteral (Server qtDbString readQtDbString)
open sqlTable (server81)

variable {nCols : ℕ}

def colMapFrom (x : ℕ) : List Bool → List ℕ
  | [] => []
  | attisdropped :: rest =>
    if attisdropped then 0 :: colMapFrom x rest else x :: colMapFrom (x + 1) rest

def colMap (attisdropped : List Bool) : List ℕ := colMapFrom 1 attisdropped

/- `colMap[cn - 1] - offset` -/
def keyColumn (hasOids : Bool) (attisdropped : List Bool) (cn : ℕ) : ℕ :=
  let offset := if hasOids then 0 else 1
  (colMap attisdropped)[cn - 1]?.getD 0 - offset

theorem colMapPresent {attisdropped : List Bool} {i : ℕ} (present : attisdropped[i]? = some false)
    (x : ℕ) : (colMapFrom x attisdropped)[i]? =
      some (x + (attisdropped.take i).count false) := by
  induction attisdropped generalizing i x with
  | nil => simp at present
  | cons dropped rest ih =>
    cases i with
    | zero =>
      cases dropped
      · simp [colMapFrom]
      · simp at present
    | succ i =>
      rw [List.getElem?_cons_succ] at present
      cases dropped
      · simp only [colMapFrom, Bool.false_eq_true, if_false, List.getElem?_cons_succ,
          ih present (x + 1), List.take_succ_cons, List.count_cons_self]
        congr 1
        omega
      · simp [colMapFrom, ih present x]

/- The table the grid was opened on: which attributes were dropped, and the numbers in its primary
key, none of them dropped. The key columns of the grid are those that MakeKey finds for them. -/
structure Catalog (t : Opened nCols) where
  attisdropped : List Bool
  primaryKeyColNumbers : List ℕ
  present : ∀ cn ∈ primaryKeyColNumbers, 0 < cn ∧ attisdropped[cn - 1]? = some false
  keys : t.primaryKey.map Fin.val =
    primaryKeyColNumbers.map (keyColumn t.hasOids attisdropped)

namespace Opened

variable {t : Opened nCols}

/- Where SELECT * has an attribute: after the oid, and without the dropped ones. -/
def resultColumn (t : Opened nCols) (attisdropped : List Bool) (cn : ℕ) : ℕ :=
  t.firstColumn + (attisdropped.take (cn - 1)).count false

theorem keyColumns (catalog : Catalog t) : t.primaryKey.map Fin.val =
    catalog.primaryKeyColNumbers.map (t.resultColumn catalog.attisdropped) := by
  rw [catalog.keys]
  refine List.map_congr_left fun cn member => ?_
  obtain ⟨-, present⟩ := catalog.present cn member
  rw [keyColumn, resultColumn, firstColumn, colMap, colMapPresent present]
  cases t.hasOids <;> simp

def keyLiteral (t : Opened nCols) (server : Server) (col : Fin nCols) (colval : Text) : Text :=
  qtDbString server colval ++
    if (t.columns col).typeName = [] then [] else "::".toList ++ (t.columns col).displayTypeName

/- The loop of MakeKey over the key columns, with the clause so far. -/
def makeKeyFrom (t : Opened nCols) (server : Server) (qtIdent : Text → Text)
    (cells : Fin nCols → Text) : List (Fin nCols) → Text → Text
  | [], whereClause => whereClause
  | col :: rest, whereClause =>
    if cells col = [] then []
    else
      let colval := t.keyCell cells col
      let whereClause := if whereClause.isEmpty then whereClause else whereClause ++ " AND ".toList
      makeKeyFrom t server qtIdent cells rest (whereClause ++ qtIdent (t.columns col).name ++
        " = ".toList ++ t.keyLiteral server col colval)

/- MakeKey as it is sent; qtIdent quotes a name. -/
def makeKeyText (t : Opened nCols) (server : Server) (qtIdent : Text → Text)
    (cells : Fin nCols → Text) : Text :=
  if t.primaryKey ≠ [] then t.makeKeyFrom server qtIdent cells t.primaryKey []
  else if t.hasOids then
    match (List.finRange nCols).head? with
    | some col => "oid = ".toList ++ cells col
    | none => []
  else []

def condition (t : Opened nCols) (server : Server) (qtIdent : Text → Text)
    (compared : Fin nCols × Text) : Text :=
  qtIdent (t.columns compared.1).name ++ " = ".toList ++
    t.keyLiteral server compared.1 compared.2

theorem makeKeyFromEmpty {server : Server} {qtIdent : Text → Text} {cells : Fin nCols → Text}
    {keys : List (Fin nCols)} {clause : Text} (empty : ∃ col ∈ keys, cells col = []) :
    t.makeKeyFrom server qtIdent cells keys clause = [] := by
  induction keys generalizing clause with
  | nil =>
    obtain ⟨col, member, -⟩ := empty
    exact nomatch member
  | cons first keys ih =>
    rw [makeKeyFrom]
    split
    · rfl
    · rename_i filled
      refine ih ?_
      obtain ⟨col, member, none⟩ := empty
      rcases List.mem_cons.mp member with rfl | later
      · exact absurd none filled
      · exact ⟨col, later, none⟩

theorem makeKeyFromFilled {server : Server} {qtIdent : Text → Text} {cells : Fin nCols → Text}
    {keys : List (Fin nCols)} {clause : Text} (filled : ∀ col ∈ keys, cells col ≠ [])
    (started : clause ≠ []) : t.makeKeyFrom server qtIdent cells keys clause =
      clause ++ keys.flatMap fun col =>
        " AND ".toList ++ t.condition server qtIdent (col, t.keyCell cells col) := by
  induction keys generalizing clause with
  | nil => simp [makeKeyFrom]
  | cons first keys ih =>
    have goes : clause.isEmpty = false := by simpa using started
    rw [makeKeyFrom, if_neg (filled first List.mem_cons_self)]
    simp only [goes, Bool.false_eq_true, if_false]
    rw [ih (fun col member => filled col (List.mem_cons_of_mem _ member)) (by simp)]
    simp [condition]

theorem intercalateFlatMap (separator first : Text) (rest : List Text) :
    separator.intercalate (first :: rest) = first ++ rest.flatMap (separator ++ ·) := by
  induction rest generalizing first with
  | nil => simp
  | cons next rest ih =>
    rw [List.intercalate_cons_cons, ih, List.flatMap_cons]
    simp only [List.append_assoc]

theorem makeKeyTextRenders (t : Opened nCols) (server : Server) (qtIdent : Text → Text)
    (cells : Fin nCols → Text) : t.makeKeyText server qtIdent cells =
      match t.MakeKey cells with
      | none => []
      | some (.oid value) => "oid = ".toList ++ value
      | some (.columns compared) =>
        " AND ".toList.intercalate (compared.map (t.condition server qtIdent)) := by
  rw [makeKeyText, MakeKey]
  by_cases keyed : t.primaryKey ≠ []
  · rw [if_pos keyed, if_pos keyed]
    by_cases empty : ∃ col ∈ t.primaryKey, cells col = []
    · rw [makeKeyFromEmpty empty, if_pos (by simpa using empty)]
    · have filled : ∀ col ∈ t.primaryKey, cells col ≠ [] := fun col member none =>
        empty ⟨col, member, none⟩
      rw [if_neg (by simpa using empty)]
      cases keys : t.primaryKey with
      | nil => exact absurd keys keyed
      | cons first rest =>
        rw [keys] at filled
        rw [makeKeyFrom, if_neg (filled first List.mem_cons_self)]
        simp only [List.isEmpty_nil, if_true, List.nil_append]
        rw [makeKeyFromFilled (fun col member => filled col (List.mem_cons_of_mem _ member))
          (by simp)]
        simp only [List.map_cons, intercalateFlatMap, List.map_map, List.flatMap_map, condition,
          Function.comp_apply]
  · rw [if_neg keyed, if_neg keyed]
    cases t.hasOids
    · rfl
    · simp only [if_true]
      cases List.finRange nCols with
      | nil => rfl
      | cons col rest => rfl

def conditionValue (t : Opened nCols) (server : Server) (compared : Fin nCols × Text) :
    Option Text :=
  (SqlLiteral.read server (t.keyLiteral server compared.1 compared.2)).map Prod.fst

theorem conditionValueSelf (t : Opened nCols) (server : Server) (compared : Fin nCols × Text) :
    t.conditionValue server compared = some compared.2 := by
  have closes : ∀ cast : Text, cast = [] ∨ cast.head? = some ':' → cast.head? ≠ some '\'' := by
    rintro cast (rfl | colon)
    · simp
    · simp [colon]
  rw [conditionValue, keyLiteral, readQtDbString server _ (closes _ ?_)]
  · rfl
  · split <;> simp

def Selects (t : Opened nCols) (server : Server) (compared : List (Fin nCols × Text))
    (values : Fin nCols → Option Text) : Prop :=
  ∀ c ∈ compared, values c.1 = t.conditionValue server c

/- The cells of a fetched row, as GetValue shows and keeps them. -/
def cached (t : Opened nCols) (row : ℕ) : Fin nCols → Text :=
  fun col => t.display col (t.fetched row col)

/- What MakeKey can turn back into the value. -/
def KeyRestored (c : sqlCellAttr) (value : Option Text) : Prop :=
  value ≠ some twoQuotes ∧ (value = some [] → c.typeName = "text".toList)

theorem keyCellRestores {row : ℕ} {col : Fin nCols} (text : (t.columns col).IsText)
    (notNull : t.dataSet row col ≠ none) :
    some (t.keyCell (t.cached row) col) = t.dataSet row col ↔
      KeyRestored (t.columns col) (t.dataSet row col) := by
  have shown : t.cached row col = sqlCellAttr.encoded (t.dataSet row col) := fetchedText text row
  rw [keyCell, shown, KeyRestored]
  match value : t.dataSet row col with
  | none => exact absurd value notNull
  | some [] =>
    simp [sqlCellAttr.encoded, twoQuotes]
  | some (a :: rest) =>
    by_cases quotes : a :: rest = twoQuotes
    · simp [sqlCellAttr.encoded, quotes, twoQuotes, escapedQuotes]
    · have other : ¬ (a :: rest = "''".toList ∧ (t.columns col).typeName = "text".toList) :=
        fun same => quotes same.1
      simp only [sqlCellAttr.encoded, if_neg quotes, if_neg other]
      simpa using quotes

theorem makeKeyCached {row : ℕ} (keyed : t.primaryKey ≠ [])
    (text : ∀ col ∈ t.primaryKey, (t.columns col).IsText)
    (notNull : ∀ col ∈ t.primaryKey, t.dataSet row col ≠ none) :
    t.MakeKey (t.cached row) =
      some (.columns (t.primaryKey.map fun col => (col, t.keyCell (t.cached row) col))) := by
  have filled : ∀ col ∈ t.primaryKey, t.cached row col ≠ [] := by
    intro col member
    have shown : t.cached row col = sqlCellAttr.encoded (t.dataSet row col) :=
      fetchedText (text col member) row
    rw [shown]
    match value : t.dataSet row col with
    | none => exact absurd value (notNull col member)
    | some [] => simp [sqlCellAttr.encoded, twoQuotes]
    | some (a :: rest) =>
      simp only [sqlCellAttr.encoded]
      split <;> simp [escapedQuotes]
  rw [MakeKey, if_pos keyed, if_neg (by simpa using filled)]

/-- The WHERE clause of a fetched row names the columns of the primary key, and it selects this row
alone if and only if MakeKey restores each of its key values. -/
theorem keySelectsRow (server : Server) (t : Opened nCols) (catalog : Catalog t) (row : ℕ)
    (keyed : t.primaryKey ≠ []) (text : ∀ col ∈ t.primaryKey, (t.columns col).IsText)
    (notNull : ∀ col ∈ t.primaryKey, t.dataSet row col ≠ none)
    (table : Set (Fin nCols → Option Text)) (here : t.dataSet row ∈ table)
    (unique : ∀ a ∈ table, ∀ b ∈ table, (∀ col ∈ t.primaryKey, a col = b col) → a = b) :
    ∃ compared, t.MakeKey (t.cached row) = some (.columns compared) ∧
      (compared.map fun c => c.1.val) =
        catalog.primaryKeyColNumbers.map (t.resultColumn catalog.attisdropped) ∧
      ((∀ c ∈ compared, t.conditionValue server c = t.dataSet row c.1) ↔
        ∀ col ∈ t.primaryKey, KeyRestored (t.columns col) (t.dataSet row col)) ∧
      ((∀ a ∈ table, t.Selects server compared a ↔ a = t.dataSet row) ↔
        ∀ col ∈ t.primaryKey, KeyRestored (t.columns col) (t.dataSet row col)) := by
  have denotes : (∀ c ∈ t.primaryKey.map fun col => (col, t.keyCell (t.cached row) col),
      t.conditionValue server c = t.dataSet row c.1) ↔
      ∀ col ∈ t.primaryKey, KeyRestored (t.columns col) (t.dataSet row col) := by
    simp only [List.forall_mem_map, conditionValueSelf]
    exact forall₂_congr fun col member => keyCellRestores (text col member) (notNull col member)
  refine ⟨_, makeKeyCached keyed text notNull, ?_, denotes, ?_⟩
  · rw [List.map_map, ← keyColumns catalog]
    rfl
  · rw [← denotes]
    constructor
    · intro alone c member
      exact ((alone _ here).mpr rfl c member).symm
    · intro same a member
      refine ⟨fun selected => unique a member _ here fun col key => ?_, ?_⟩
      · have compared := List.mem_map_of_mem (f := fun col => (col, t.keyCell (t.cached row) col)) key
        exact (selected _ compared).trans (same _ compared)
      · rintro rfl c compared
        exact (same c compared).symm

def oneKey (value : Text) : Opened 1 where
  hasOids := false
  columns _ := {
    name := "code".toList
    typeName := "text".toList
    displayTypeName := "character varying(10)".toList
    isReadOnly := false
    numeric := false
    isBool := false
    isBit := false
    isBytea := false }
  primaryKey := List.finRange 1
  nRows := 1
  dataSet _ _ := some value

def oneKeyCatalog (value : Text) : Catalog (oneKey value) where
  attisdropped := [true, false]
  primaryKeyColNumbers := [2]
  present := by simp
  keys := rfl

theorem keySelectsRowEmpty : ∃ compared,
    (oneKey []).MakeKey ((oneKey []).cached 0) = some (.columns compared) ∧
      (∀ a ∈ ({(oneKey []).dataSet 0} : Set (Fin 1 → Option Text)),
        (oneKey []).Selects server81 compared a ↔ a = (oneKey []).dataSet 0) := by
  obtain ⟨compared, made, -, -, selects⟩ := keySelectsRow server81 (oneKey []) (oneKeyCatalog []) 0
    (by simp [oneKey]) (fun _ _ => ⟨rfl, rfl, rfl, rfl⟩) (fun _ _ => by simp [oneKey])
    {(oneKey []).dataSet 0} rfl (fun a here b there _ => here.trans there.symm)
  refine ⟨compared, made, selects.mpr fun col _ => ?_⟩
  simp [KeyRestored, oneKey, twoQuotes]

/- A key of two quotes is compared with what stands for two quotes in a cell. -/
theorem keyMissesRow : ∃ compared,
    (oneKey twoQuotes).MakeKey ((oneKey twoQuotes).cached 0) = some (.columns compared) ∧
      ¬ (oneKey twoQuotes).Selects server81 compared ((oneKey twoQuotes).dataSet 0) := by
  refine ⟨_, rfl, fun selected => ?_⟩
  exact absurd (selected (0, escapedQuotes) (by decide)) (by decide)

end Opened

end PgAdmin.frmEditGrid
