import PgAdmin.PgsAssignToRecord

/-! What a record assignment does to the variables: when it ends, which line it writes, and what
is left of a rejected one. Everything before insert() only reads; insert() itself ends for every
narrowed line but 65535, and refuses the column after it has added the lines. -/
namespace PgAdmin.PgsObjects

namespace PgsRecord

theorem cellAtLine (r : PgsRecord) {i j : ℕ} (inside : i < r.lines.length) :
    r.cellAt i j = r.lines[i][j]? := by simp [cellAt, inside]

theorem extCells {a b : PgsRecord} (columns : a.columns = b.columns)
    (lines : a.lines.length = b.lines.length)
    (cells : ∀ i j, i < a.lines.length → j < a.columns.length → a.cellAt i j = b.cellAt i j) :
    a = b := by
  have same : a.lines = b.lines := by
    refine List.ext_getElem lines fun i ha hb => ?_
    have widthA := a.square _ (List.getElem_mem ha)
    have widthB := b.square _ (List.getElem_mem hb)
    refine List.ext_getElem (by rw [widthA, widthB, columns]) fun j ja jb => ?_
    have cell := cells i j ha (by omega)
    rw [cellAtLine a ha, cellAtLine b hb, List.getElem?_eq_getElem ja,
      List.getElem?_eq_getElem jb] at cell
    exact Option.some.inj cell
  cases a
  cases b
  cases columns
  cases same
  rfl

theorem storesUnique {r a b : PgsRecord} {n : ℤ} {column : ℕ} {v : Scalar}
    (left : r.Stores n column v a) (right : r.Stores n column v b) : a = b := by
  have lengths : a.lines.length = b.lines.length := by
    have := left.lines
    have := right.lines
    omega
  refine extCells (left.columns.trans right.columns.symm) lengths fun i j inside wide => ?_
  rw [left.columns] at wide
  by_cases cell : i = n.toNat ∧ j = column
  · rw [cell.1, cell.2, left.cell, right.cell]
  · rw [left.others i j cell inside wide, right.others i j cell (lengths ▸ inside) wide]

end PgsRecord

namespace PgsAssignToRecord
variable {σ : Type} {host : Host σ} {e : PgsAssignToRecord σ} {vars after : PgsVarMap} {s s' : σ}

theorem assignCases {fuel : ℕ} {result : Except PgsException Unit}
    (ran : e.assign host fuel vars s = some (result, after, s')) :
    (∃ x, result = .error x ∧ after = vars) ∨
      ∃ t column valid record, (e.target host vars).run s = (.ok t, s') ∧
        t.column = some column ∧
        t.record.insert fuel (t.index host) (toUShort column) t.var = some (valid, record) ∧
        result = (if valid then .ok () else .error e.affectationError) ∧
        after = vars.set e.name (.record record) := by
  unfold assign at ran
  split at ran
  · cases ran
    exact .inl ⟨_, rfl, rfl⟩
  · rename_i t middle reached
    split at ran
    · cases ran
      exact .inl ⟨_, rfl, rfl⟩
    · rename_i column range
      obtain ⟨⟨valid, record⟩, inserted, same⟩ := Option.map_eq_some_iff.mp ran
      cases same
      exact .inr ⟨t, column, valid, record, reached, range, inserted, rfl, rfl⟩

theorem targetRecord {t : Target} (reached : (e.target host vars).run s = (.ok t, s')) :
    vars e.name = some (.record t.record) := by
  unfold target at reached
  split at reached
  · rename_i record found
    rw [found]
    obtain ⟨var, _, _, rest⟩ := evalBind reached
    cases var with
    | record r => cases rest
    | scalar v =>
      obtain ⟨line, _, _, rest⟩ := evalBind rest
      obtain ⟨column, _, _, rest⟩ := evalBind rest
      obtain ⟨text, _, _, rest⟩ := evalBind rest
      split at rest
      · obtain ⟨index, _, _, rest⟩ := evalBind rest
        cases rest
        rfl
      · cases rest
  · cases reached

theorem assignInsert {t : Target} {column : ℤ} {fuel : ℕ} {out : Bool × PgsRecord}
    (reached : (e.target host vars).run s = (.ok t, s')) (range : t.column = some column)
    (inserted : t.record.insert fuel (t.index host) (toUShort column) t.var = some out) :
    e.assign host fuel vars s =
      some (if out.1 then .ok () else .error e.affectationError,
        vars.set e.name (.record out.2), s') := by
  unfold assign
  rw [reached]
  simp only [range, inserted, Option.map_some]

theorem evalEnds :
    (∃ fuel out, e.eval host fuel vars s = some out) ↔
      ∃ fuel out, e.assign host fuel vars s = some out := by
  refine exists_congr fun fuel => ?_
  simp only [eval, Option.map_eq_some_iff]
  constructor
  · rintro ⟨_, out, ran, _⟩
    exact ⟨out, ran⟩
  · rintro ⟨out, ran⟩
    exact ⟨_, out, ran, rfl⟩

theorem evalThrows {fuel : ℕ} {x : PgsException} :
    e.eval host fuel vars s = some (.error x, after, s') ↔
      e.assign host fuel vars s = some (.error x, after, s') ∨
        ∃ middle, e.assign host fuel vars s = some (.ok (), after, middle) ∧
          (e.ident.eval host after).run middle = (.error x, s') := by
  simp only [eval, Option.map_eq_some_iff]
  constructor
  · rintro ⟨⟨result, written, middle⟩, ran, same⟩
    cases result with
    | error y =>
      cases same
      exact .inl ran
    | ok =>
      simp only [Prod.mk.injEq] at same
      obtain ⟨thrown, rfl, last⟩ := same
      exact .inr ⟨middle, ran, Prod.ext thrown last⟩
  · rintro (ran | ⟨middle, ran, thrown⟩)
    · exact ⟨_, ran, rfl⟩
    · exact ⟨_, ran, by simp only [thrown]⟩

/-! The line written is the line named. -/

/- The line expression, where evaluation gets to it, has the value n. -/
def LineValue (host : Host σ) (e : PgsAssignToRecord σ) (vars : PgsVarMap) (s : σ) (n : ℤ) : Prop :=
  ∀ t s', (e.target host vars).run s = (.ok t, s') → textInt t.line = some n

structure WritesLine (host : Host σ) (e : PgsAssignToRecord σ) (vars : PgsVarMap) (s : σ)
    (n : ℤ) : Prop where
  ends : ∃ fuel out, e.eval host fuel vars s = some out
  stores : ∀ fuel after s', e.assign host fuel vars s = some (.ok (), after, s') →
    ∃ t column record, (e.target host vars).run s = (.ok t, s') ∧
      after = vars.set e.name (.record record) ∧ t.record.Stores n column t.var record

/- The assignment is refused before insert(), or the narrowed line is not 65535 and either
insert() will refuse the narrowed column or the line is one a record can have. -/
def LineFits (host : Host σ) (e : PgsAssignToRecord σ) (vars : PgsVarMap) (s : σ) (n : ℤ) : Prop :=
  ∀ t s' column, (e.target host vars).run s = (.ok t, s') → t.column = some column →
    (t.index host).toNat ≠ 65535 ∧
      (t.record.columns.length ≤ (toUShort column).toNat ∨ 0 ≤ n ∧ n < 65535)

theorem indexNat {t : Target} {n : ℤ} (value : textInt t.line = some n) (nonneg : 0 ≤ n)
    (small : n < 65535) : ((t.index host).toNat : ℤ) = n := by
  have exact : toLong host.auxLine t.line = n := by
    simp only [toLong, value]
    exact if_pos (by omega)
  rw [Target.index, exact, toUShortNat]
  omega

theorem assignEnds {t : Target} {column : ℤ} (reached : (e.target host vars).run s = (.ok t, s'))
    (range : t.column = some column) :
    (∃ fuel out, e.assign host fuel vars s = some out) ↔ (t.index host).toNat ≠ 65535 := by
  constructor
  · rintro ⟨fuel, out, ran⟩
    unfold assign at ran
    rw [reached] at ran
    simp only [range] at ran
    obtain ⟨_, inserted, _⟩ := Option.map_eq_some_iff.mp ran
    exact (PgsRecord.insertFits inserted).ne
  · intro other
    have bound := (t.index host).toNat_lt
    obtain ⟨fuel, out, inserted⟩ :=
      t.record.insertEnds (toUShort column) t.var (by omega : (t.index host).toNat < 65535)
    exact ⟨fuel, _, assignInsert reached range inserted⟩

theorem assignRefused (refused : ∀ t column, ((e.target host vars).run s).1 = .ok t →
    t.column ≠ some column) : ∃ out, ∀ fuel, e.assign host fuel vars s = some out := by
  unfold assign
  cases reached : (e.target host vars).run s with
  | mk result s' =>
    cases result with
    | error x => exact ⟨_, fun _ => rfl⟩
    | ok t =>
      cases range : t.column with
      | none => exact ⟨_, fun _ => by simp only [range]; rfl⟩
      | some column => exact absurd range (refused t column (by rw [reached]))

/-- An assignment to line n of any record ends and writes that line and no other, with
max(old count, n+1) lines after it, exactly when the line fits. -/
theorem writesLineFits (host : Host σ) (e : PgsAssignToRecord σ) (vars : PgsVarMap) (s : σ) (n : ℤ)
    (value : e.LineValue host vars s n) :
    e.WritesLine host vars s n ↔ e.LineFits host vars s n := by
  constructor
  · intro writes t s' column reached range
    have ended := (assignEnds reached range).mp (evalEnds.mp writes.ends)
    refine ⟨ended, ?_⟩
    by_contra accepted
    push Not at accepted
    have bound := (t.index host).toNat_lt
    obtain ⟨fuel, ⟨valid, record⟩, inserted⟩ :=
      t.record.insertEnds (toUShort column) t.var (by omega : (t.index host).toNat < 65535)
    cases valid with
    | false => exact absurd (PgsRecord.insertFails inserted).1 (by omega)
    | true =>
      obtain ⟨_, _, after, _, _, stored⟩ :=
        writes.stores fuel _ _ (assignInsert reached range inserted)
      have lines := stored.lines
      have fits := after.linesFit
      have := accepted.2 stored.nonneg
      omega
  · intro fits
    constructor
    · rw [evalEnds]
      by_cases refused : ∀ t column, ((e.target host vars).run s).1 = .ok t → t.column ≠ some column
      · obtain ⟨out, ran⟩ := assignRefused refused
        exact ⟨0, out, ran 0⟩
      · push Not at refused
        obtain ⟨t, column, reached, range⟩ := refused
        have reached : (e.target host vars).run s = (.ok t, ((e.target host vars).run s).2) :=
          Prod.ext reached rfl
        exact (assignEnds reached range).mpr (fits t _ column reached range).1
    · intro fuel after s' ran
      rcases assignCases ran with ⟨x, thrown, _⟩ | ⟨t, column, valid, record, reached, range,
        inserted, result, written⟩
      · cases thrown
      · cases valid with
        | false => cases result
        | true =>
          obtain ⟨inside, stored⟩ := PgsRecord.insertStores inserted
          rcases (fits t s' column reached range).2 with outside | ⟨nonneg, small⟩
          · omega
          · rw [indexNat (value t s' reached) nonneg small] at stored
            exact ⟨t, _, record, reached, written, stored⟩

/- SET @R[line][column] = 1 on a record without lines and with one column. -/
def onEmptyRecord (line column : Text) : PgsAssignToRecord Unit where
  name := ['@', 'R']
  line := .constant (.pgsNumber line false) line
  column := .constant (.pgsNumber column false) column
  var := .constant (.pgsNumber ['1'] false) ['1']

def emptyRecord : PgsVarMap :=
  fun name => if name = ['@', 'R'] then some (.record (.create 1)) else none

def plainHost : Host Unit := ⟨.plain, fun _ => pure [], 0, 0⟩

theorem onEmptyRecordTarget (line column : Text) :
    ((onEmptyRecord line column).target plainHost emptyRecord).run () =
      (.ok ⟨.create 1, .pgsNumber ['1'] false, line,
        if toLong 0 column < 1 then some (toLong 0 column) else none⟩, ()) := rfl

theorem onEmptyRecordLine {line column : Text} {n : ℤ} (value : textInt line = some n) :
    (onEmptyRecord line column).LineValue plainHost emptyRecord () n := by
  intro t s' reached
  rw [onEmptyRecordTarget] at reached
  cases reached
  exact value

theorem writesLineFitsTwo :
    (onEmptyRecord ['2'] ['0']).WritesLine plainHost emptyRecord () 2 ↔
      (onEmptyRecord ['2'] ['0']).LineFits plainHost emptyRecord () 2 :=
  writesLineFits _ _ _ _ 2 (onEmptyRecordLine rfl)

/- SET @R[65535][0] = 1 never ends. -/
theorem lineTopStuck :
    (∀ fuel, (onEmptyRecord "65535".toList ['0']).eval plainHost fuel emptyRecord () = none) ∧
      (onEmptyRecord "65535".toList ['0']).LineValue plainHost emptyRecord () 65535 ∧
      ¬ (onEmptyRecord "65535".toList ['0']).WritesLine plainHost emptyRecord () 65535 := by
  have stuck : ∀ fuel,
      (onEmptyRecord "65535".toList ['0']).eval plainHost fuel emptyRecord () = none := by
    intro fuel
    have range : (if toLong 0 ['0'] < 1 then some (toLong 0 ['0']) else none) = some 0 := by decide
    have ends := assignEnds (onEmptyRecordTarget "65535".toList ['0']) range
    cases ran : (onEmptyRecord "65535".toList ['0']).eval plainHost fuel emptyRecord () with
    | none => rfl
    | some out => exact absurd (by decide) (ends.mp (evalEnds.mp ⟨fuel, out, ran⟩))
  refine ⟨stuck, onEmptyRecordLine (by decide), fun writes => ?_⟩
  obtain ⟨fuel, out, ran⟩ := writes.ends
  rw [stuck] at ran
  contradiction

/-! A rejected assignment. -/

def Atomic (host : Host σ) (e : PgsAssignToRecord σ) (vars : PgsVarMap) (s : σ) : Prop :=
  ∀ fuel x after s', e.eval host fuel vars s = some (.error x, after, s') → after = vars

/- A column that passes the signed check and is out of range once narrowed (a negative one), on a
line the record does not have yet. -/
def GrowsThenRejects (host : Host σ) (e : PgsAssignToRecord σ) (vars : PgsVarMap) (s : σ) : Prop :=
  ∃ t s' column, (e.target host vars).run s = (.ok t, s') ∧ t.column = some column ∧
    t.record.columns.length ≤ (toUShort column).toNat ∧
    t.record.lines.length ≤ (t.index host).toNat ∧ (t.index host).toNat < 65535

/- The value to store differs from what is there, and with it stored the line or the column
expression throws. -/
def RereadThrows (host : Host σ) (e : PgsAssignToRecord σ) (vars : PgsVarMap) (s : σ) : Prop :=
  ∃ t s' column record x, (e.target host vars).run s = (.ok t, s') ∧ t.column = some column ∧
    (toUShort column).toNat < t.record.columns.length ∧ (t.index host).toNat < 65535 ∧
    t.record.Stores (t.index host).toNat (toUShort column).toNat t.var record ∧
    record ≠ t.record ∧
    ((e.ident.eval host (vars.set e.name (.record record))).run s').1 = .error x

theorem rejectedUnchanged {fuel : ℕ} {x : PgsException}
    (calm : ¬ e.GrowsThenRejects host vars s)
    (ran : e.assign host fuel vars s = some (.error x, after, s')) : after = vars := by
  rcases assignCases ran with ⟨_, _, same⟩ | ⟨t, column, valid, record, reached, range, inserted,
    result, written⟩
  · exact same
  · cases valid with
    | true => cases result
    | false =>
      obtain ⟨outside, grown⟩ := PgsRecord.insertFails inserted
      obtain ⟨fits, columns, lines⟩ := PgsRecord.growShape grown
      have known : (t.index host).toNat < t.record.lines.length := by
        by_contra new
        exact calm ⟨t, s', column, reached, range, outside, not_lt.mp new, fits⟩
      have same : record = t.record := by
        rw [show (t.index host).toNat + 1 - t.record.lines.length = 0 by omega,
          List.replicate_zero, List.append_nil] at lines
        refine PgsRecord.extCells columns (by rw [lines]) fun i j _ _ => ?_
        rw [PgsRecord.cellAt, PgsRecord.cellAt, lines]
      rw [written, same]
      exact PgsVarMap.setSelf (targetRecord reached)

theorem rereadUnchanged {fuel : ℕ} {x : PgsException} {middle : σ}
    (calm : ¬ e.RereadThrows host vars s)
    (ran : e.assign host fuel vars s = some (.ok (), after, middle))
    (thrown : (e.ident.eval host after).run middle = (.error x, s')) : after = vars := by
  rcases assignCases ran with ⟨_, error, _⟩ | ⟨t, column, valid, record, reached, range, inserted,
    result, written⟩
  · cases error
  · cases valid with
    | false => cases result
    | true =>
      obtain ⟨inside, stored⟩ := PgsRecord.insertStores inserted
      have same : record = t.record := by
        by_contra changed
        rw [written] at thrown
        exact calm ⟨t, middle, column, record, x, reached, range, inside,
          PgsRecord.insertFits inserted, stored, changed, by rw [thrown]⟩
      rw [written, same]
      exact PgsVarMap.setSelf (targetRecord reached)

/-- A throwing assignment leaves every variable as it was exactly when no negative column makes
the record grow first and no re-evaluation throws once the value is stored. -/
theorem atomicAffectation (host : Host σ) (e : PgsAssignToRecord σ) (vars : PgsVarMap) (s : σ) :
    e.Atomic host vars s ↔ ¬ e.GrowsThenRejects host vars s ∧ ¬ e.RereadThrows host vars s := by
  constructor
  · intro atomic
    constructor
    · rintro ⟨t, s', column, reached, range, outside, new, fits⟩
      obtain ⟨fuel, ⟨valid, record⟩, inserted⟩ := t.record.insertEnds (toUShort column) t.var fits
      cases valid with
      | true =>
        have := (PgsRecord.insertStores inserted).1
        omega
      | false =>
        have ran := assignInsert reached range inserted
        have same := atomic fuel _ _ _ (evalThrows.mpr (.inl ran))
        have unchanged := PgsVarMap.setInjective (targetRecord reached) same
        obtain rfl : record = t.record := by simpa using unchanged
        have lines := (PgsRecord.growShape (PgsRecord.insertFails inserted).2).2.2
        have length := congrArg List.length lines
        rw [List.length_append, List.length_replicate] at length
        omega
    · rintro ⟨t, s', column, record, x, reached, range, inside, fits, stores, changed, thrown⟩
      obtain ⟨fuel, ⟨valid, after⟩, inserted⟩ := t.record.insertEnds (toUShort column) t.var fits
      cases valid with
      | false =>
        have := (PgsRecord.insertFails inserted).1
        omega
      | true =>
        cases PgsRecord.storesUnique stores (PgsRecord.insertStores inserted).2
        have ran := assignInsert reached range inserted
        have same := atomic fuel x _ _ (evalThrows.mpr (.inr ⟨s', ran, Prod.ext thrown rfl⟩))
        cases PgsVarMap.setInjective (targetRecord reached) same
        exact changed rfl
  · rintro ⟨grows, rereads⟩ fuel x after s' ran
    rcases evalThrows.mp ran with thrown | ⟨middle, stored, thrown⟩
    · exact rejectedUnchanged grows thrown
    · exact rereadUnchanged rereads stored thrown

/- SET @R[3][-1] = 1 throws and leaves four lines in @R. -/
theorem negativeColumnGrows :
    ¬ (onEmptyRecord ['3'] ['-', '1']).Atomic plainHost emptyRecord () := by
  intro atomic
  obtain ⟨x, record, ran, lines⟩ : ∃ x record,
      (onEmptyRecord ['3'] ['-', '1']).eval plainHost 5 emptyRecord () =
        some (.error x, emptyRecord.set ['@', 'R'] (.record record), ()) ∧
      record.lines.length = 4 := ⟨_, _, rfl, rfl⟩
  have same := atomic 5 x _ () ran
  obtain rfl : record = .create 1 := by simpa using PgsVarMap.setInjective rfl same
  contradiction

end PgsAssignToRecord
end PgAdmin.PgsObjects
