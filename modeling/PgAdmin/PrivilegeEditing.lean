import PgAdmin.GrantReplay
import PgAdmin.SecurityPanel

/-! Running the statements of the panel. They leave every role with what its row says, when each
row finds its own item on the list: no item before it has a name that goes on after the row's
with an equals sign. -/
namespace PgAdmin.ctlSecurityPanel
open PgsObjects (Text)
open AclText Privileges wxString pgObject

variable {keyword : Text → Bool} {pattern : Pattern} {current rows items : List (Row pattern)}
  {object column : Text}

theorem takeNone {name : Text}
    (apart : ∀ it ∈ items, it.name ≠ name ∧ ¬ name ++ ['='] <+: it.name) :
    takeItem name (items.map Row.item) = none := by
  induction items with
  | nil => rfl
  | cons it items ih =>
    have here := apart it List.mem_cons_self
    have other : ¬ it.item.take (name.length + 1) = name ++ ['='] := by
      rw [it.startsIff]
      exact not_or.mpr here
    rw [List.map_cons, takeItem, if_neg other,
      ih fun later member => apart later (List.mem_cons_of_mem it member)]
    rfl

theorem takeOwn {own : Row pattern} {before after : List (Row pattern)}
    (apart : ∀ it ∈ before, it.name ≠ own.name ∧ ¬ own.name ++ ['='] <+: it.name) :
    takeItem own.name ((before ++ own :: after).map Row.item) =
      some (own.item, (before ++ after).map Row.item) := by
  induction before with
  | nil =>
    have here := (own.startsIff own.name).mpr (.inl rfl)
    rw [List.nil_append, List.map_cons, takeItem, if_pos here]
    rfl
  | cons it before ih =>
    have here := apart it List.mem_cons_self
    have other : ¬ it.item.take (own.name.length + 1) = own.name ++ ['='] := by
      rw [it.startsIff]
      exact not_or.mpr here
    rw [List.cons_append, List.map_cons, takeItem, if_neg other,
      ih fun later member => apart later (List.mem_cons_of_mem it member)]
    rfl

def ownItem (current : List (Row pattern)) (row : Row pattern) : Option Text :=
  (current.find? fun it => it.name = row.name).map Row.item

def text (row : Row pattern) : Text × Text := (row.name, row.value)

/- An item whose name goes on after a row's has been taken before the row comes, or stands after
the row's own. -/
def Apart (current rows : List (Row pattern)) (done : List Text) : Prop :=
  ∀ (before : List (Row pattern)) (it : Row pattern) (after : List (Row pattern)),
    current = before ++ it :: after → ∀ (earlier : List (Row pattern)) (row : Row pattern)
      (later : List (Row pattern)), rows = earlier ++ row :: later →
        row.name ++ ['='] <+: it.name →
          it.name ∈ done ++ earlier.map Row.name ∨ ∃ own ∈ before, own.name = row.name

theorem apartRest {row : Row pattern} {done : List Text} (apart : Apart current (row :: rows) done) :
    Apart current rows (done ++ [row.name]) := by
  intro before it after whole earlier later' later split starts
  have next := apart before it after whole (row :: earlier) later' later (by rw [split]; rfl) starts
  simpa using next

theorem keptNames {row : Row pattern} {done : List Text} {part : List (Row pattern)}
    (other : ∀ it ∈ part, it.name ≠ row.name) :
    (part.filter fun it => it.name ∉ done ++ [row.name]) = part.filter fun it => it.name ∉ done :=
  List.filter_congr fun it member => by simp [other it member]

theorem rowTaken {row : Row pattern} {done : List Text} (unique : (current.map Row.name).Nodup)
    (fresh : row.name ∉ done) (apart : Apart current (row :: rows) done) :
    (takeItem row.name ((current.filter fun it => it.name ∉ done).map Row.item)).map
        (fun taken => taken.1) = ownItem current row ∧
      (takeItem row.name ((current.filter fun it => it.name ∉ done).map Row.item)).elim
        ((current.filter fun it => it.name ∉ done).map Row.item) (fun taken => taken.2) =
        (current.filter fun it => it.name ∉ done ++ [row.name]).map Row.item := by
  have first : ∀ before it after, current = before ++ it :: after → it.name ∉ done →
      (∀ earlier ∈ before, earlier.name ≠ row.name) → ¬ row.name ++ ['='] <+: it.name := by
    intro before it after whole left others starts
    rcases apart before it after whole [] row rows rfl starts with inside | ⟨own, member, same⟩
    · exact left (by simpa using inside)
    · exact others own member same
  unfold ownItem
  cases found : current.find? fun it => it.name = row.name with
  | none =>
    have others : ∀ it ∈ current, it.name ≠ row.name := by simpa using found
    have missed : takeItem row.name ((current.filter fun it => it.name ∉ done).map Row.item) =
        none := takeNone fun it member => by
        obtain ⟨inside, left⟩ := List.mem_filter.mp member
        obtain ⟨before, after, whole⟩ := List.append_of_mem inside
        refine ⟨others it inside, first before it after whole (by simpa using left) ?_⟩
        exact fun earlier member => others earlier (whole ▸ List.mem_append_left _ member)
    rw [missed, keptNames others]
    exact ⟨rfl, rfl⟩
  | some own =>
    obtain ⟨named, before, after, rfl, others⟩ := List.find?_eq_some_iff_append.mp found
    have name : own.name = row.name := by simpa using named
    have othersBefore : ∀ it ∈ before, it.name ≠ row.name := fun it member => by
      simpa using others it member
    have othersAfter : ∀ it ∈ after, it.name ≠ row.name := by
      intro it member same
      rw [List.map_append, List.map_cons, List.nodup_append] at unique
      exact (List.nodup_cons.mp unique.2.1).1
        (name.trans same.symm ▸ List.mem_map_of_mem member)
    have kept : own.name ∉ done := name ▸ fresh
    have listed : ((before ++ own :: after).filter fun it => it.name ∉ done) =
        (before.filter fun it => it.name ∉ done) ++ own ::
          (after.filter fun it => it.name ∉ done) := by
      simp [kept]
    have left : ((before ++ own :: after).filter fun it => it.name ∉ done ++ [row.name]) =
        (before.filter fun it => it.name ∉ done) ++ (after.filter fun it => it.name ∉ done) := by
      rw [List.filter_append, List.filter_cons, keptNames othersBefore, keptNames othersAfter]
      simp [name]
    have taken : takeItem own.name (((before.filter fun it => it.name ∉ done) ++ own ::
        (after.filter fun it => it.name ∉ done)).map Row.item) = some (own.item,
          ((before.filter fun it => it.name ∉ done) ++ (after.filter fun it => it.name ∉ done)).map
            Row.item) := takeOwn fun it member => by
        obtain ⟨inside, out⟩ := List.mem_filter.mp member
        obtain ⟨earlier, later, rfl⟩ := List.append_of_mem inside
        rw [name]
        refine ⟨othersBefore it inside, first earlier it (later ++ own :: after) (by simp)
          (by simpa using out) ?_⟩
        exact fun x member => othersBefore x (List.mem_append_left _ member)
    rw [listed, left, ← name, taken]
    exact ⟨rfl, rfl⟩

/-- Every row finds its own item, and the items without a row are left. -/
theorem grantRowsOwn {done : List Text} (unique : (current.map Row.name).Nodup)
    (distinct : (rows.map Row.name).Nodup) (fresh : ∀ row ∈ rows, row.name ∉ done)
    (apart : Apart current rows done) :
    grantRows keyword pattern.letters object column (rows.map text)
        ((current.filter fun it => it.name ∉ done).map Row.item) =
      (rows.flatMap fun row => grantRow keyword pattern.letters object column row.name row.value
          (ownItem current row),
        (current.filter fun it => it.name ∉ done ++ rows.map Row.name).map Row.item) := by
  induction rows generalizing done with
  | nil => simp [grantRows]
  | cons row rows ih =>
    obtain ⟨notRow, distinct⟩ := List.nodup_cons.mp distinct
    have fresh' : ∀ later ∈ rows, later.name ∉ done ++ [row.name] := by
      intro later member
      have other : later.name ≠ row.name := fun same =>
        notRow (same ▸ List.mem_map_of_mem member)
      simpa [other] using fresh later (List.mem_cons_of_mem row member)
    have rest := ih distinct fresh' (apartRest apart)
    have taken := rowTaken unique (fresh row List.mem_cons_self) apart
    rw [List.map_cons, text, grantRows, taken.1, taken.2, rest]
    simp

def heldBy (list : List (Row pattern)) : Holdings Grantee Char :=
  {t | ∃ row ∈ list, t.1 = row.grantee ∧ Gives row.privileges t.2.1 t.2.2}

def commands (keyword : Text → Bool) (pattern : Pattern) (statements : List Statement) :
    List (Command Grantee Char) :=
  statements.filterMap (Statement.command keyword pattern)

theorem valueCommands {row : Row pattern} (plain : row.Plain) {held : Holdings Grantee Char}
    {x : Char × Bool} (none : (row.grantee, x) ∉ held) :
    (row.grantee, x) ∈ run held (commands keyword pattern (GetPrivileges pattern.letters row.value
      object (grantUser keyword row.name) column)) ↔ Gives row.privileges x.1 x.2 := by
  have read : readGrantee keyword (grantUser keyword row.name) = some row.grantee :=
    row.readName plain
  by_cases empty : row.privileges = []
  · have revoked : commands keyword pattern (GetPrivileges pattern.letters row.value object
        (grantUser keyword row.name) column) = [.revoke row.grantee] := by
      rw [Row.value, empty]
      exact revokeCommands read
    rw [revoked, empty]
    refine iff_of_false ?_ (by simp [Gives])
    exact runRevoked (t := (row.grantee, x)) fun command member => absurd member List.not_mem_nil
  · have granted := @grantCommands _ _ object _ column _ _ read row.inside empty
    rw [commands, Row.value, runUnrevoked fun command member => granted.1 command member _]
    have gives := granted.2 row.grantee x.1 x.2
    rw [show (row.grantee, x) = (row.grantee, x.1, x.2) from rfl, gives]
    simp [none]

theorem rowUser {row : Row pattern} {found : Option Text} {s : Statement}
    (member : s ∈ grantRow keyword pattern.letters object column row.name row.value found) :
    s.user = grantUser keyword row.name := by
  simp only [grantRow] at member
  split at member
  · exact nomatch member
  · rcases List.mem_append.mp member with first | second
    · split at first
      · exact statementUser first
      · exact nomatch first
    · exact statementUser second

theorem rowWho {row : Row pattern} (plain : row.Plain) {found : Option Text}
    {command : Command Grantee Char}
    (member : command ∈ commands keyword pattern (grantRow keyword pattern.letters object column
      row.name row.value found)) : command.who = row.grantee := by
  obtain ⟨s, statement, read⟩ := List.mem_filterMap.mp member
  have who := commandWho read
  rw [rowUser statement, row.readName plain] at who
  exact (Option.some.inj who).symm

/-- The statements of a row leave its role with what the row says. -/
theorem rowCommands {row : Row pattern} (plain : row.Plain)
    (plains : ∀ it ∈ current, it.Plain) (unique : (current.map Row.name).Nodup)
    {held : Holdings Grantee Char} {x : Char × Bool}
    (start : (row.grantee, x) ∈ held ↔ (row.grantee, x) ∈ heldBy current) :
    (row.grantee, x) ∈ run held (commands keyword pattern (grantRow keyword pattern.letters object
      column row.name row.value (ownItem current row))) ↔ Gives row.privileges x.1 x.2 := by
  unfold ownItem
  cases found : current.find? fun it => it.name = row.name with
  | none =>
    have others : ∀ it ∈ current, it.name ≠ row.name := by simpa using found
    have none : (row.grantee, x) ∉ held := by
      rw [start]
      rintro ⟨it, member, grantee, -⟩
      exact others it member (congrArg shown (grantee.symm : it.grantee = row.grantee))
    exact valueCommands plain none
  | some own =>
    have member := List.mem_of_find?_eq_some found
    have name : own.name = row.name := by simpa using List.find?_some found
    have grantee : own.grantee = row.grantee := Row.nameSame (plains own member) plain name
    have after : own.item.drop (row.name.length + 1) = own.value := by
      rw [Row.item, ← name]
      simp
    by_cases same : own.value = row.value
    · have nothing : grantRow keyword pattern.letters object column row.name row.value
          (some own.item) = [] := by simp [grantRow, after, same]
      have gives : Gives own.privileges x.1 x.2 ↔ Gives row.privileges x.1 x.2 := by
        have texts : privilegeText own.privileges = privilegeText row.privileges := same
        rw [givesText own.inside, givesText row.inside, texts]
      rw [Option.map_some, nothing]
      show (row.grantee, x) ∈ held ↔ _
      rw [start, ← gives]
      constructor
      · rintro ⟨it, listed, who, given⟩
        have again : it.name = own.name := congrArg shown ((who.symm : it.grantee = _).trans
          grantee.symm)
        exact List.inj_on_of_nodup_map unique listed member again ▸ given
      · exact fun given => ⟨own, member, grantee.symm, given⟩
    · have statements : grantRow keyword pattern.letters object column row.name row.value
          (some own.item) = GetPrivileges pattern.letters [] object (grantUser keyword row.name)
            column ++ GetPrivileges pattern.letters row.value object (grantUser keyword row.name)
            column := by simp [grantRow, after, same]
      rw [Option.map_some, statements, commands, List.filterMap_append, runAppend,
        revokeCommands (row.readName plain)]
      refine valueCommands plain ?_
      exact runRevoked (t := (row.grantee, x)) fun command member => absurd member List.not_mem_nil

theorem namesNodup {list : List (Row pattern)} (plains : ∀ row ∈ list, row.Plain)
    (unique : (list.map Row.grantee).Nodup) : (list.map Row.name).Nodup := by
  rw [List.Nodup, List.pairwise_map] at unique ⊢
  exact unique.imp_of_mem fun first second apart same =>
    apart (Row.nameSame (plains _ first) (plains _ second) same)

local instance textLawful : LawfulBEq Text := inferInstance

def dropped (current rows : List (Row pattern)) : List (Row pattern) :=
  current.filter fun it => it.name ∉ rows.map Row.name

theorem statementsMatch (unique : (current.map Row.name).Nodup)
    (distinct : (rows.map Row.name).Nodup) (apart : Apart current rows []) :
    GetGrant keyword pattern.letters object (rows.map text) (current.map Row.item) column =
      (rows.flatMap fun row => grantRow keyword pattern.letters object column row.name row.value
        (ownItem current row)) ++ (dropped current rows).flatMap fun it =>
          GetPrivileges pattern.letters [] object (grantUser keyword it.name) column := by
  have loop := @grantRowsOwn keyword _ _ _ object column [] unique distinct (fun row _ => List.not_mem_nil) apart
  have all : (current.filter fun it => it.name ∉ ([] : List Text)) = current := by simp
  rw [all] at loop
  simp only [GetGrant, loop, List.nil_append, List.flatMap_map, Row.nameBefore, dropped]

theorem droppedCommands (left : List (Row pattern)) (plains : ∀ it ∈ left, it.Plain) :
    commands keyword pattern (left.flatMap fun it => GetPrivileges pattern.letters [] object
      (grantUser keyword it.name) column) = left.map fun it => .revoke it.grantee := by
  rw [commands, List.filterMap_flatMap, List.map_eq_flatMap]
  exact List.flatMap_congr fun it member => revokeCommands (it.readName (plains it member))

theorem rowGranted (plains : ∀ row ∈ rows, row.Plain) (plains' : ∀ it ∈ current, it.Plain)
    (unique : (current.map Row.name).Nodup) (distinct : (rows.map Row.name).Nodup)
    (apart : Apart current rows []) {row : Row pattern} (member : row ∈ rows) (x : Char × Bool) :
    (row.grantee, x) ∈ replay keyword pattern (heldBy current) (GetGrant keyword pattern.letters
        object (rows.map text) (current.map Row.item) column) ↔ Gives row.privileges x.1 x.2 := by
  obtain ⟨earlier, later, rfl⟩ := List.append_of_mem member
  rw [List.map_append, List.map_cons] at distinct
  have others : ∀ other ∈ earlier ++ later, other.grantee ≠ row.grantee := by
    intro other inside same
    have name : other.name = row.name := congrArg shown same
    rcases List.mem_append.mp inside with before | after
    · exact (List.nodup_append.mp distinct).2.2 _ (List.mem_map_of_mem before) _
        List.mem_cons_self name
    · exact (List.nodup_cons.mp (List.nodup_append.mp distinct).2.1).1
        (name ▸ List.mem_map_of_mem after)
  have apartWho : ∀ part : List (Row pattern), (∀ other ∈ part, other ∈ earlier ++ later) →
      ∀ command ∈ commands keyword pattern (part.flatMap fun row => grantRow keyword
        pattern.letters object column row.name row.value (ownItem current row)),
        command.who ≠ row.grantee := by
    intro part inside command member
    rw [commands, List.filterMap_flatMap] at member
    obtain ⟨other, listed, here⟩ := List.mem_flatMap.mp member
    have plain := plains other (by
      rcases List.mem_append.mp (inside other listed) with before | after
      · exact List.mem_append_left _ before
      · exact List.mem_append_right _ (List.mem_cons_of_mem row after))
    rw [rowWho plain here]
    exact others other (inside other listed)
  have apartDropped : ∀ command ∈ commands keyword pattern ((dropped current
      (earlier ++ row :: later)).flatMap fun it => GetPrivileges pattern.letters [] object
        (grantUser keyword it.name) column), command.who ≠ row.grantee := by
    rw [droppedCommands (dropped current (earlier ++ row :: later)) fun it member =>
      plains' it (List.mem_filter.mp member).1]
    intro command member
    obtain ⟨it, listed, rfl⟩ := List.mem_map.mp member
    intro same
    have name : it.name = row.name := congrArg shown same
    have out := (List.mem_filter.mp listed).2
    rw [name] at out
    simp at out
  rw [statementsMatch unique (by rwa [List.map_append, List.map_cons]) apart]
  have pieces : ∀ a b, commands keyword pattern (a ++ b) =
      commands keyword pattern a ++ commands keyword pattern b := fun a b => List.filterMap_append
  show _ ∈ run (heldBy current) (commands keyword pattern _) ↔ _
  rw [List.flatMap_append, List.flatMap_cons, pieces, pieces, pieces, runAppend, runAppend,
    runAppend, runOther apartDropped, runOther (apartWho later fun _ => List.mem_append_right _)]
  refine rowCommands (plains row member) plains' unique ?_
  exact runOther (apartWho earlier fun _ => List.mem_append_left _) x

theorem unlistedRevoked (plains : ∀ row ∈ rows, row.Plain) (plains' : ∀ it ∈ current, it.Plain)
    (unique : (current.map Row.name).Nodup) (distinct : (rows.map Row.name).Nodup)
    (apart : Apart current rows []) {g : Grantee} (unlisted : ∀ row ∈ rows, row.grantee ≠ g)
    (x : Char × Bool) : (g, x) ∉ replay keyword pattern (heldBy current) (GetGrant keyword
      pattern.letters object (rows.map text) (current.map Row.item) column) := by
  rw [statementsMatch unique distinct apart]
  show _ ∉ run (heldBy current) (commands keyword pattern _)
  have apartRows : ∀ command ∈ commands keyword pattern (rows.flatMap fun row => grantRow keyword
      pattern.letters object column row.name row.value (ownItem current row)),
      command.who ≠ g := by
    intro command member
    rw [commands, List.filterMap_flatMap] at member
    obtain ⟨row, listed, here⟩ := List.mem_flatMap.mp member
    rw [rowWho (plains row listed) here]
    exact unlisted row listed
  have revokes := @droppedCommands keyword _ object column (dropped current rows)
    fun it member => plains' it (List.mem_filter.mp member).1
  rw [commands, List.filterMap_append, runAppend, ← commands, ← commands, revokes]
  by_cases item : ∃ it ∈ current, it.grantee = g
  · obtain ⟨it, listed, rfl⟩ := item
    have left : it ∈ dropped current rows := by
      refine List.mem_filter.mpr ⟨listed, ?_⟩
      rw [decide_eq_true_eq]
      intro named
      obtain ⟨row, member, same⟩ := List.mem_map.mp named
      exact unlisted row member (Row.nameSame (plains row member) (plains' it listed) same)
    obtain ⟨before, after, whole⟩ := List.append_of_mem left
    rw [whole, List.map_append, List.map_cons, runAppend]
    refine runRevoked (t := (it.grantee, x)) fun command member => ?_
    obtain ⟨other, -, rfl⟩ := List.mem_map.mp member
    exact id
  · intro last
    rcases runHeld last with first | ⟨command, member, grants⟩
    · rw [runOther apartRows] at first
      obtain ⟨it, listed, same, -⟩ := first
      exact item ⟨it, listed, same.symm⟩
    · obtain ⟨other, -, rfl⟩ := List.mem_map.mp member
      exact grants

theorem unchangedRow {row : Row pattern} (unique : (current.map Row.name).Nodup)
    (unchanged : row.item ∈ current.map Row.item) :
    grantRow keyword pattern.letters object column row.name row.value (ownItem current row) =
      [] := by
  obtain ⟨it, member, same⟩ := List.mem_map.mp unchanged
  have name : it.name = row.name := by rw [← it.nameBefore, same, row.nameBefore]
  obtain ⟨own, found⟩ : ∃ own, current.find? (fun it => it.name = row.name) = some own :=
    Option.isSome_iff_exists.mp (List.find?_isSome.mpr ⟨it, member, by simpa using name⟩)
  have again : own = it := List.inj_on_of_nodup_map unique (List.mem_of_find?_eq_some found) member
    ((by simpa using List.find?_some found : own.name = row.name).trans name.symm)
  have value : own.item.drop (row.name.length + 1) = row.value := by
    rw [again, same, Row.item]
    simp
  rw [ownItem, found]
  simp [grantRow, value]

/-- Where the rows find their own items and no role's name is like a group's, every role ends with
what its row says, and a row as it was gives no statement. -/
theorem privilegesEdited (keyword : Text → Bool) (object column : Text)
    (current rows : List (Row pattern)) (listed : (current.map Row.grantee).Nodup)
    (edited : (rows.map Row.grantee).Nodup) (plain : ∀ row ∈ current ++ rows, row.Plain)
    (apart : Apart current rows []) :
    replay keyword pattern (heldBy current) (GetGrant keyword pattern.letters object
        (rows.map text) (current.map Row.item) column) = heldBy rows ∧
      ∀ row ∈ rows, row.item ∈ current.map Row.item →
        ∀ s ∈ GetGrant keyword pattern.letters object (rows.map text) (current.map Row.item) column,
          readGrantee keyword s.user ≠ some row.grantee := by
  have plains : ∀ row ∈ rows, row.Plain := fun row member =>
    plain row (List.mem_append_right _ member)
  have plains' : ∀ it ∈ current, it.Plain := fun it member =>
    plain it (List.mem_append_left _ member)
  have unique := namesNodup plains' listed
  have distinct := namesNodup plains edited
  constructor
  · refine Set.ext fun ⟨g, x⟩ => ?_
    by_cases row : ∃ row ∈ rows, row.grantee = g
    · obtain ⟨row, member, rfl⟩ := row
      rw [rowGranted plains plains' unique distinct apart member]
      constructor
      · exact fun gives => ⟨row, member, rfl, gives⟩
      · rintro ⟨other, inside, same, gives⟩
        exact List.inj_on_of_nodup_map edited inside member same.symm ▸ gives
    · push Not at row
      refine iff_of_false (unlistedRevoked plains plains' unique distinct apart row x) ?_
      rintro ⟨other, inside, same, -⟩
      exact row other inside same.symm
  · intro row member unchanged s statement same
    rw [statementsMatch unique distinct apart] at statement
    rcases List.mem_append.mp statement with inRows | inDropped
    · obtain ⟨other, inside, here⟩ := List.mem_flatMap.mp inRows
      have who : other.grantee = row.grantee := by
        rw [rowUser here, other.readName (plains other inside)] at same
        exact Option.some.inj same
      have again := List.inj_on_of_nodup_map edited inside member who
      subst again
      rw [unchangedRow unique unchanged] at here
      exact nomatch here
    · obtain ⟨it, left, here⟩ := List.mem_flatMap.mp inDropped
      obtain ⟨inside, out⟩ := List.mem_filter.mp left
      rw [statementUser here, it.readName (plains' it inside)] at same
      have name : it.name = row.name := congrArg shown (Option.some.inj same)
      rw [name] at out
      simp [List.mem_map_of_mem member] at out

def readRow (name : Text) (named : Named name) : Row tablePattern where
  grantee := .role name
  privileges := [('r', false)]
  named := .inr named
  inside := by simp [tablePattern]

def rowA : Row tablePattern := readRow ['a'] ⟨by decide, by decide⟩
def rowAB : Row tablePattern := readRow ['a', '=', 'b'] ⟨by decide, by decide⟩

theorem privilegesEditedBoth : ([rowA, rowAB].map Row.grantee).Nodup ∧
    replay (fun _ => false) tablePattern (heldBy [rowA, rowAB]) (GetGrant (fun _ => false)
      tablePattern.letters [] ([rowA].map text) ([rowA, rowAB].map Row.item) []) =
        heldBy [rowA] := by
  have listed : ([rowA, rowAB].map Row.grantee).Nodup := by decide
  refine ⟨listed, (privilegesEdited (fun _ => false) [] [] [rowA, rowAB] [rowA] listed (by decide)
    ?_ ?_).1⟩
  · intro row member role same
    have either : row = rowA ∨ row = rowAB := by simpa [or_comm] using member
    rcases either with rfl | rfl <;> cases same <;> decide
  · intro before it after whole earlier row later split starts
    have row : row = rowA := List.mem_singleton.mp (split ▸ by simp)
    subst row
    cases before with
    | nil =>
      obtain ⟨rfl, -⟩ := List.cons.inj whole
      exact absurd starts (by decide)
    | cons first before =>
      obtain ⟨rfl, -⟩ := List.cons.inj whole
      exact .inr ⟨rowA, List.mem_cons_self, rfl⟩

/- The row of a takes the item of a=b, which keeps its privilege. -/
theorem foreignItemTaken : ([rowAB].map Row.grantee).Nodup ∧ ([rowA].map Row.grantee).Nodup ∧
    replay (fun _ => false) tablePattern (heldBy [rowAB]) (GetGrant (fun _ => false)
      tablePattern.letters [] ([rowA].map text) ([rowAB].map Row.item) []) ≠ heldBy [rowA] := by
  refine ⟨by decide, by decide, fun same => ?_⟩
  have statements : GetGrant (fun _ => false) tablePattern.letters [] ([rowA].map text)
      ([rowAB].map Row.item) [] = grantRow (fun _ => false) tablePattern.letters [] [] rowA.name
        rowA.value (some rowAB.item) := by
    rfl
  have plain : rowA.Plain := fun role same => by
    cases same
    decide
  have kept : (rowAB.grantee, 'r', false) ∈ replay (fun _ => false) tablePattern (heldBy [rowAB])
      (GetGrant (fun _ => false) tablePattern.letters [] ([rowA].map text) ([rowAB].map Row.item)
        []) := by
    rw [statements]
    refine (runOther (fun command member => ?_) _).mpr
      ⟨rowAB, List.mem_singleton_self _, rfl, false, List.mem_singleton_self _, id⟩
    rw [rowWho plain member]
    decide
  rw [same] at kept
  obtain ⟨row, member, grantee, -⟩ := kept
  rw [List.mem_singleton.mp member] at grantee
  exact absurd grantee (by decide)

end PgAdmin.ctlSecurityPanel
