import PgAdmin.PgsMapm
import PgAdmin.PgsRecordComparison
import PgAdmin.Recorded

/-! Numbers, strings and records of them, and the operators on them. Every number that the constructor makes
of a text is recorded. A copy of a number has its type and its text. -/
namespace PgAdmin.PgsObjects
open pgsMapm

structure PgsNumber where
  data : Text
  isReal : Bool
  deriving DecidableEq

namespace PgsNumber

def valid (n : PgsNumber) : Bool := isValid n.data n.isReal

/- num(value()) -/
def num (n : PgsNumber) : Decimal := pgsStrMapm n.data

end PgsNumber

/- A pgsVariable that is no generator and has none in it. -/
inductive Constant where
  | number (n : PgsNumber)
  | string (data : Text)
  | record (r : PgsRecord) (fixed : r.Fixed)

inductive Halt where
  | thrown (x : PgsException)
  | unfinished

abbrev Made := Recorded PgsNumber Halt

/-! The cells of a record read from a text. -/

namespace PgsRecord

def All (p : Scalar → Prop) (r : PgsRecord) : Prop := ∀ line ∈ r.lines, ∀ cell ∈ line, p cell

theorem insertAll {p : Scalar → Prop} {fuel : ℕ} {r : PgsRecord} {line column : USHORT} {v : Scalar}
    {out : Bool × PgsRecord} (blank : p (.pgsString [])) (new : p v) (old : r.All p)
    (ok : r.insert fuel line column v = some out) : out.2.All p := by
  obtain ⟨grown, found, same⟩ := Option.map_eq_some_iff.mp ok
  obtain ⟨_, _, lines⟩ := growShape found
  have grownAll : grown.All p := by
    intro cells member cell inside
    rw [lines, List.mem_append] at member
    rcases member with before | added
    · exact old cells before cell inside
    · rw [List.eq_of_mem_replicate added] at inside
      rw [List.eq_of_mem_replicate inside]
      exact blank
  split at same
  · cases same
    exact grownAll
  · cases same
    intro cells member cell inside
    obtain ⟨i, bound, rfl⟩ := List.mem_iff_getElem.mp member
    rw [setCellLines, List.length_modify] at bound
    simp only [setCellLines, List.getElem_modify] at inside
    split at inside
    · rcases List.mem_or_eq_of_mem_set inside with kept | rfl
      · exact grownAll _ (List.getElem_mem bound) cell kept
      · exact new
    · exact grownAll _ (List.getElem_mem bound) cell inside

theorem createAll (p : Scalar → Prop) (columns : USHORT) : (create columns).All p :=
  fun _ member => absurd member List.not_mem_nil

end PgsRecord

namespace PgsString
open PgsRecord
variable {ctype : Ctype} {p : Scalar → Prop}

theorem insertElementsAll {fuel columns lineNb columnNb : ℕ} {line : Text} {r after : PgsRecord}
    (blank : p (.pgsString [])) (cells : ∀ value, p (cell ctype value)) (old : r.All p)
    (ok : insertElements ctype columns lineNb fuel line columnNb r = some after) : after.All p := by
  induction fuel generalizing line columnNb r with
  | zero => cases ok
  | succ fuel ih =>
    rw [insertElements] at ok
    split at ok
    · cases ok
      exact old
    · obtain ⟨next, inserted, rest⟩ := Option.bind_eq_some_iff.mp ok
      refine ih ?_ rest
      split at inserted
      · obtain ⟨out, stored, rfl⟩ := Option.map_eq_some_iff.mp inserted
        exact insertAll blank (cells _) old stored
      · cases inserted
        exact old

theorem recordLinesAll {fuel columns lineNb : ℕ} {data : Text} {r after : Option PgsRecord}
    (blank : p (.pgsString [])) (cells : ∀ value, p (cell ctype value)) (old : ∀ x ∈ r, x.All p)
    (ok : recordLines ctype fuel data columns lineNb r = some after) : ∀ x ∈ after, x.All p := by
  induction fuel generalizing data columns lineNb r with
  | zero => cases ok
  | succ fuel ih =>
    rw [recordLines] at ok
    split at ok
    · cases ok
      exact old
    · split at ok
      · obtain ⟨count, _, rest⟩ := Option.bind_eq_some_iff.mp ok
        refine ih (fun x member => ?_) rest
        cases Option.mem_some.mp member
        exact createAll p _
      · obtain ⟨next, inserted, rest⟩ := Option.bind_eq_some_iff.mp ok
        refine ih (fun x member => ?_) rest
        cases Option.mem_some.mp member
        exact insertElementsAll blank cells (old _ rfl) inserted

theorem recordAll {fuel : ℕ} {data : Text} {r : PgsRecord} (blank : p (.pgsString []))
    (cells : ∀ value, p (cell ctype value)) (whole : p (.pgsString data))
    (ok : record ctype fuel data = some r) : r.All p := by
  obtain ⟨read, lines, rest⟩ := Option.bind_eq_some_iff.mp ok
  cases read with
  | some found =>
    cases rest
    exact recordLinesAll blank cells (fun x member => by cases member) lines r rfl
  | none =>
    obtain ⟨out, stored, rfl⟩ := Option.map_eq_some_iff.mp rest
    exact insertAll blank whole (createAll p 1) stored

theorem cellPlain (ctype : Ctype) (value : Text) : (cell ctype value).Plain := by
  rw [cell]
  split
  · trivial
  · have form : PgsNumber.numType value ≠ .pgsTString → ctype.strip value = value := by
      intro number
      have valid : PgsNumber.isValid value true = true := by
        cases type : PgsNumber.numType value
        · simp [PgsNumber.isValid, type]
        · simp [PgsNumber.isValid, type]
        · exact absurd type number
      exact stripWord ctype (PgsNumber.validWord valid).2.1
    split
    case h_1 type => simp [Scalar.Plain, PgsNumber.isValid, form (by simp [type]), type]
    case h_2 type => simp [Scalar.Plain, PgsNumber.isValid, form (by simp [type]), type]
    case h_3 => trivial

def elementNumbers (ctype : Ctype) (columns : ℕ) : ℕ → Text → ℕ → List PgsNumber
  | 0, _, _ => []
  | fuel + 1, line, columnNb =>
    match element.search line with
    | none => []
    | some (before, value, after) =>
      let rest := elementNumbers ctype columns fuel (before ++ after) (columnNb + 1)
      match cell ctype value with
      | .pgsNumber data isReal => if columnNb < columns then ⟨data, isReal⟩ :: rest else rest
      | _ => rest

def lineNumbers (ctype : Ctype) (columns : ℕ) : ℕ → Text → List PgsNumber
  | 0, _ => []
  | fuel + 1, data =>
    match (lineForm ctype).longest data with
    | none => []
    | some length => elementNumbers ctype columns fuel (data.take length) 0 ++
      lineNumbers ctype columns fuel (data.drop length)

def recordNumbers (ctype : Ctype) (fuel : ℕ) (data : Text) : List PgsNumber :=
  match (lineForm ctype).longest data with
  | none => []
  | some length => match countElements fuel (data.take length) 0 with
    | none => []
    | some columns => lineNumbers ctype columns fuel data

theorem elementNumbersValid {columns fuel columnNb : ℕ} {line : Text} {n : PgsNumber}
    (member : n ∈ elementNumbers ctype columns fuel line columnNb) : n.valid := by
  induction fuel generalizing line columnNb with
  | zero => cases member
  | succ fuel ih =>
    rw [elementNumbers] at member
    split at member
    · cases member
    · rename_i value _ _
      have plain := cellPlain ctype value
      dsimp only at member
      split at member
      case h_1 data isReal same =>
        rw [same] at plain
        split at member
        · rcases List.mem_cons.mp member with rfl | later
          · exact plain
          · exact ih later
        · exact ih member
      case h_2 => exact ih member

theorem recordNumbersValid {fuel : ℕ} {data : Text} {n : PgsNumber}
    (member : n ∈ recordNumbers ctype fuel data) : n.valid := by
  have lines : ∀ columns fuel data, n ∈ lineNumbers ctype columns fuel data → n.valid := by
    intro columns fuel
    induction fuel with
    | zero => exact fun _ inside => absurd inside List.not_mem_nil
    | succ fuel ih =>
      intro data inside
      rw [lineNumbers] at inside
      split at inside
      · cases inside
      · rcases List.mem_append.mp inside with first | later
        · exact elementNumbersValid first
        · exact ih _ later
  rw [recordNumbers] at member
  split at member
  · cases member
  · split at member
    · cases member
    · exact lines _ _ _ member

end PgsString
end PgAdmin.PgsObjects
