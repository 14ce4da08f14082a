import PgAdmin.CompositeMembers

/-! The list of members and the arrays beside it as one list of rows, as long as every row has its entries. -/
namespace PgAdmin.dlgType
open PgsObjects (Text)

structure Row where
  name : Text
  type : Text
  collation : Text
  typeInfo : Text
  length : Text
  precision : Text
  original : Text
  deriving DecidableEq

def Row.item (r : Row) : MemberItem := ⟨r.name, r.type, r.collation⟩

def Members.of (rows : List Row) : Members :=
  ⟨rows.map Row.item, rows.map Row.typeInfo, rows.map Row.length, rows.map Row.precision,
    rows.map Row.collation, rows.map Row.original⟩

def Members.rows (m : Members) : List Row :=
  (m.lstMembers.zip (m.memberTypes.zip (m.memberLengths.zip (m.memberPrecisions.zip m.memberOriginalNames)))).map
    fun (item, typeInfo, length, precision, original) =>
      ⟨item.name, item.type, item.collation, typeInfo, length, precision, original⟩

structure Members.Aligned (m : Members) : Prop where
  types : m.memberTypes.length = m.lstMembers.length
  lengths : m.memberLengths.length = m.lstMembers.length
  precisions : m.memberPrecisions.length = m.lstMembers.length
  collations : m.memberCollations.length = m.lstMembers.length
  originals : m.memberOriginalNames.length = m.lstMembers.length

@[simp] theorem rowsOf (rows : List Row) : (Members.of rows).rows = rows := by
  simp only [Members.rows, Members.of, List.zip_map', List.map_map]
  exact List.map_id' rows

theorem alignedOf (rows : List Row) : (Members.of rows).Aligned := by
  constructor <;> simp [Members.of]

def elementsOf (items : List MemberItem) : List Text := items.flatMap fun i => [i.name, i.type, i.collation]

section Opening
variable (cb : Datatypes)

def openRow (i : MemberItem) : Row where
  name := i.name
  type := i.type
  collation := i.collation
  typeInfo := (foundTypes cb (splitType i.type).1).headD []
  length := (splitType i.type).2.1
  precision := (splitType i.type).2.2
  original := i.name

def Known (i : MemberItem) : Prop := (splitType i.type).1 ∈ cb.cbDatatype.dropLast

instance (i : MemberItem) : Decidable (Known cb i) := inferInstanceAs (Decidable (_ ∈ _))

variable {cb}

theorem foundKnown {i : MemberItem} (known : Known cb i) :
    foundTypes cb (splitType i.type).1 = [(openRow cb i).typeInfo] := by
  have found : (cb.cbDatatype.dropLast.findIdx? (· == (splitType i.type).1)).isSome := by
    rw [List.findIdx?_isSome, List.any_eq_true]
    exact ⟨_, known, beq_self_eq_true _⟩
  obtain ⟨pos, here⟩ := Option.isSome_iff_exists.mp found
  simp [openRow, foundTypes, here]

theorem foundUnknown {i : MemberItem} (unknown : ¬ Known cb i) : foundTypes cb (splitType i.type).1 = [] := by
  have missed : cb.cbDatatype.dropLast.findIdx? (· == (splitType i.type).1) = none := by
    rw [List.findIdx?_eq_none_iff]
    intro label member
    refine beq_eq_false_iff_ne.mpr fun same => unknown ?_
    rw [Known, ← same]
    exact member
  simp [foundTypes, missed]

theorem readKnown {items : List MemberItem} (known : ∀ i ∈ items, Known cb i) (rows : List Row) :
    readMembers cb (elementsOf items) (Members.of rows) = Members.of (rows ++ items.map (openRow cb)) := by
  induction items generalizing rows with
  | nil => rw [List.map_nil, List.append_nil]; rfl
  | cons i items ih =>
    have next := ih (fun j member => known j (List.mem_cons_of_mem i member)) (rows ++ [openRow cb i])
    rw [List.append_assoc] at next
    refine Eq.trans ?_ next
    show readMembers cb (i.name :: i.type :: i.collation :: elementsOf items) _ = _
    rw [readMembers, foundKnown (known i List.mem_cons_self)]
    simp [Members.of, Row.item, openRow]

theorem readLengths (items : List MemberItem) (m : Members) :
    (readMembers cb (elementsOf items) m).lstMembers.length = m.lstMembers.length + items.length ∧
    (readMembers cb (elementsOf items) m).memberTypes.length =
      m.memberTypes.length + items.countP fun i => Known cb i := by
  induction items generalizing m with
  | nil => exact ⟨rfl, rfl⟩
  | cons i items ih =>
    show (readMembers cb (i.name :: i.type :: i.collation :: elementsOf items) m).lstMembers.length = _ ∧
      (readMembers cb (i.name :: i.type :: i.collation :: elementsOf items) m).memberTypes.length = _
    rw [readMembers, (ih _).1, (ih _).2]
    by_cases known : Known cb i
    · rw [foundKnown known]
      simp only [List.length_append, List.length_cons, List.length_nil, List.countP_cons, known]
      exact ⟨by omega, by simp only [decide_true, if_true]; omega⟩
    · rw [foundUnknown known]
      simp only [List.length_append, List.length_cons, List.length_nil, List.countP_cons, known]
      exact ⟨by omega, by simp⟩

theorem openKnown {items : List MemberItem} (known : ∀ i ∈ items, Known cb i) :
    Go cb (elementsOf items) = Members.of (items.map (openRow cb)) := readKnown known []

theorem openAligned {items : List MemberItem} :
    (Go cb (elementsOf items)).Aligned ↔ ∀ i ∈ items, Known cb i := by
  constructor
  · intro aligned
    have lengths := @readLengths cb items ⟨[], [], [], [], [], []⟩
    have all : items.countP (fun i => Known cb i) = items.length := by
      have types := aligned.types
      rw [Go, lengths.1, lengths.2] at types
      exact Nat.add_left_cancel types
    exact fun i member => of_decide_eq_true (List.countP_eq_length.mp all i member)
  · intro known
    rw [openKnown known]
    exact alignedOf _

end Opening

section Events
variable (cb : Datatypes)

def MemberFields.row (f : MemberFields) (original : Text) : Row where
  name := stripped f.txtMembername
  type := f.type
  collation := f.cbCollation.read
  typeInfo := GetTypeInfo cb f.selection
  length := f.txtLength.read
  precision := f.txtPrecision.read
  original

def rowsAfter (rows : List Row) : MemberEvent → List Row
  | .add f => if stripped f.txtMembername = [] then rows else rows ++ [f.row cb []]
  | .change f clicked =>
    if stripped f.txtMembername = [] then rows
    else match rows[clicked]? with
      | none => rows
      | some r => rows.set clicked (f.row cb r.original)
  | .remove clicked => rows.eraseIdx clicked

variable {cb}

theorem replaceAtInside {array : List Text} {pos : ℕ} (inside : pos < array.length) (str : Text) :
    replaceAt array str pos = array.set pos str := by
  induction array generalizing pos with
  | nil => exact absurd inside (Nat.not_lt_zero _)
  | cons x array ih =>
    cases pos with
    | zero => rfl
    | succ pos => exact congrArg (x :: ·) (ih (Nat.lt_of_succ_lt_succ inside))

theorem originalStays {rows : List Row} {clicked : ℕ} (inside : clicked < rows.length) :
    (rows.map Row.original).set clicked rows[clicked].original = rows.map Row.original := by
  have bound : clicked < (rows.map Row.original).length := by simpa using inside
  have entry : rows[clicked].original = (rows.map Row.original)[clicked] := by simp
  rw [entry, List.set_getElem_self]

theorem handleRows (rows : List Row) (event : MemberEvent) :
    handle cb (.of rows) event = .of (rowsAfter cb rows event) := by
  cases event with
  | add f =>
    simp only [handle, OnMemberAdd, rowsAfter]
    split_ifs
    · rfl
    · simp [Members.of, MemberFields.row, Row.item]
  | change f clicked =>
    simp only [handle, OnMemberChange, rowsAfter]
    split_ifs
    · rfl
    · have length : (Members.of rows).lstMembers.length = rows.length := by simp [Members.of]
      rw [GetFirstSelected, length]
      by_cases inside : clicked < rows.length
      · rw [if_pos inside, List.getElem?_eq_getElem inside]
        have replaced : ∀ (array : Row → Text) (str : Text),
            replaceAt (rows.map array) str clicked = (rows.map array).set clicked str := fun array str =>
          replaceAtInside (by simpa using inside) str
        simp only [Members.of, replaced, List.map_set, MemberFields.row, Row.item, originalStays inside]
      · rw [if_neg inside, List.getElem?_eq_none (Nat.le_of_not_lt inside)]
  | remove clicked =>
    simp only [handle, OnMemberRemove, rowsAfter]
    have length : (Members.of rows).lstMembers.length = rows.length := by simp [Members.of]
    rw [GetFirstSelected, length]
    by_cases inside : clicked < rows.length
    · rw [if_pos inside]
      simp [Members.of, List.eraseIdx_map]
    · rw [if_neg inside, List.eraseIdx_of_length_le (Nat.le_of_not_lt inside)]

theorem handledRows (rows : List Row) (events : List MemberEvent) :
    events.foldl (handle cb) (.of rows) = .of (events.foldl (rowsAfter cb) rows) := by
  induction events generalizing rows with
  | nil => rfl
  | cons event events ih => rw [List.foldl_cons, handleRows, ih, List.foldl_cons]

structure Kept (names originals : List Text) : Prop where
  order : (originals.filter (· ≠ [])).Sublist names
  newLast : originals.Pairwise fun a b => a = [] → b = []

variable {names : List Text} {rows : List Row}

theorem keptAfter (kept : Kept names (rows.map Row.original)) (event : MemberEvent) :
    Kept names ((rowsAfter cb rows event).map Row.original) := by
  cases event with
  | add f =>
    rw [rowsAfter]
    split_ifs
    · exact kept
    · rw [List.map_append]
      refine ⟨?_, List.pairwise_append.mpr ⟨kept.newLast, List.pairwise_singleton _ _, ?_⟩⟩
      · rw [List.filter_append]
        simpa [MemberFields.row] using kept.order
      · exact fun a _ b new _ => List.mem_singleton.mp new
  | change f clicked =>
    rw [rowsAfter]
    split_ifs
    · exact kept
    · cases found : rows[clicked]? with
      | none => exact kept
      | some r =>
        obtain ⟨inside, rfl⟩ := List.getElem?_eq_some_iff.mp found
        have same : (rows.set clicked (f.row cb rows[clicked].original)).map Row.original =
            rows.map Row.original := by
          rw [List.map_set]
          exact originalStays inside
        rw [same]
        exact kept
  | remove clicked =>
    have fewer : ((rows.eraseIdx clicked).map Row.original).Sublist (rows.map Row.original) :=
      (List.eraseIdx_sublist ..).map _
    exact ⟨(fewer.filter _).trans kept.order, kept.newLast.sublist fewer⟩

theorem keptRun (kept : Kept names (rows.map Row.original)) (events : List MemberEvent) :
    Kept names ((events.foldl (rowsAfter cb) rows).map Row.original) := by
  induction events generalizing rows with
  | nil => exact kept
  | cons event events ih => exact ih (keptAfter kept event)

theorem keptOpen {items : List MemberItem} (named : ∀ i ∈ items, i.name ≠ []) :
    Kept (items.map MemberItem.name) ((items.map (openRow cb)).map Row.original) := by
  have originals : (items.map (openRow cb)).map Row.original = items.map MemberItem.name := by
    rw [List.map_map]
    rfl
  rw [originals]
  refine ⟨List.filter_sublist, List.pairwise_of_forall_mem_list fun a member b _ none => ?_⟩
  obtain ⟨i, inside, rfl⟩ := List.mem_map.mp member
  exact absurd none (named i inside)

end Events
end PgAdmin.dlgType
