import PgAdmin.CacheLinePool
import Mathlib.Logic.Function.Basic

/-! The lines of a cacheLinePool by identity: which line Get() points to, which one Delete() drops and
which ones it moves. The caller edits a line through the pointer Get() gave it. -/
namespace PgAdmin.frmEditGrid

inductive Pointer where
  | null
  | uncleared
  | line (id : ℕ)

structure LinePool (nCols : ℕ) where
  ptr : List Pointer
  heap : ℕ → Option (cacheLine nCols)
  made : ℕ

inductive PoolCall (nCols : ℕ) where
  | Get (lineNo : ℕ) (edit : cacheLine nCols → cacheLine nCols)
  | Delete (lineNo : ℕ)

variable {nCols : ℕ}

namespace LinePool

def create (initialLines : ℕ) : LinePool nCols where
  ptr := List.replicate initialLines .null
  heap := fun _ => none
  made := 0

def anzLines (pool : LinePool nCols) : ℕ := pool.ptr.length

def gained (count : ℕ) : List Pointer :=
  List.replicate (count / cacheLinePool.pointerSize) .null ++
    List.replicate (count - count / cacheLinePool.pointerSize) .uncleared

def grow (pool : LinePool nCols) (lineNo : ℕ) : LinePool nCols :=
  if lineNo < pool.anzLines then pool
  else { pool with ptr := pool.ptr ++ gained (lineNo + 100 - pool.anzLines) }

/- `new cacheLine()` -/
def newLine (pool : LinePool nCols) (lineNo : ℕ) : LinePool nCols where
  ptr := pool.ptr.set lineNo (.line pool.made)
  heap := Function.update pool.heap pool.made (some .blank)
  made := pool.made + 1

def Get (pool : LinePool nCols) (lineNo : ℕ) : Option (ℕ × LinePool nCols) :=
  let grown := pool.grow lineNo
  match grown.ptr[lineNo]? with
  | some (.line id) => some (id, grown)
  | some .null => some (grown.made, grown.newLine lineNo)
  | _ => none

/- `delete ptr[lineNo]`, and no value where the pointer is garbage. -/
def drop (heap : ℕ → Option (cacheLine nCols)) : Pointer → Option (ℕ → Option (cacheLine nCols))
  | .null => some heap
  | .line id => some (Function.update heap id none)
  | .uncleared => none

/- memmove() brings the later pointers down by one, the last slot becomes null. -/
def Delete (pool : LinePool nCols) (lineNo : ℕ) : Option (LinePool nCols) :=
  match pool.ptr[lineNo]? with
  | none => some pool
  | some slot => (drop pool.heap slot).map fun heap =>
      { pool with ptr := pool.ptr.take lineNo ++ pool.ptr.drop (lineNo + 1) ++ [.null], heap := heap }

def IsFilled (pool : LinePool nCols) (lineNo : ℕ) : Option Bool :=
  match pool.ptr[lineNo]? with
  | none => some false
  | some .null => some false
  | some (.line _) => some true
  | some .uncleared => none

def edit (pool : LinePool nCols) (id : ℕ) (change : cacheLine nCols → cacheLine nCols) : LinePool nCols :=
  { pool with heap := Function.update pool.heap id ((pool.heap id).map change) }

/- The answer is the line Get() points to, with what it holds. -/
def step (pool : LinePool nCols) :
    PoolCall nCols → Option (Option (ℕ × cacheLine nCols) × LinePool nCols)
  | .Get lineNo change => do
      let (id, next) ← pool.Get lineNo
      let l ← next.heap id
      some (some (id, l), next.edit id change)
  | .Delete lineNo => (pool.Delete lineNo).map fun next => (none, next)

def held (pool : LinePool nCols) (lineNo : ℕ) : Option (Option (ℕ × cacheLine nCols)) :=
  match pool.ptr[lineNo]? with
  | none => some none
  | some .null => some none
  | some (.line id) => (pool.heap id).map fun l => some (id, l)
  | some .uncleared => none

end LinePool

/- What a pool is for: at most one line for an index, and no line for two of them. -/
structure Lines (nCols : ℕ) where
  lineAt : ℕ → Option (ℕ × cacheLine nCols)
  made : ℕ
  earlier : ∀ i line, lineAt i = some line → line.1 < made
  distinct : ∀ i j line other, lineAt i = some line → lineAt j = some other → line.1 = other.1 → i = j

namespace Lines

def none : Lines nCols where
  lineAt := fun _ => Option.none
  made := 0
  earlier := by simp
  distinct := by simp

def taken (lines : Lines nCols) (lineNo : ℕ) : ℕ × cacheLine nCols :=
  (lines.lineAt lineNo).getD (lines.made, .blank)

def get (lines : Lines nCols) (lineNo : ℕ) (change : cacheLine nCols → cacheLine nCols) : Lines nCols where
  lineAt := Function.update lines.lineAt lineNo
    (some ((lines.taken lineNo).1, change (lines.taken lineNo).2))
  made := if (lines.lineAt lineNo).isSome then lines.made else lines.made + 1
  earlier := by
    intro i line present
    by_cases here : i = lineNo
    case pos =>
      subst here
      rw [Function.update_self] at present
      cases Option.some.inj present
      cases before : lines.lineAt i with
      | none => simp [taken, before]
      | some old => simpa [taken, before] using lines.earlier i old before
    case neg =>
      rw [Function.update_of_ne here] at present
      have bound := lines.earlier i line present
      split <;> omega
  distinct := by
    have fresh : ∀ j other, j ≠ lineNo → lines.lineAt j = some other →
        (lines.taken lineNo).1 ≠ other.1 := by
      intro j other away present same
      cases before : lines.lineAt lineNo with
      | none =>
        have bound := lines.earlier j other present
        simp only [taken, before, Option.getD_none] at same
        omega
      | some old =>
        simp only [taken, before, Option.getD_some] at same
        exact away (lines.distinct j lineNo other old present before same.symm)
    intro i j line other first second same
    by_cases here : i = lineNo <;> by_cases there : j = lineNo
    · rw [here, there]
    · rw [here, Function.update_self] at first
      rw [Function.update_of_ne there] at second
      cases Option.some.inj first
      exact absurd same (fresh j other there second)
    · rw [there, Function.update_self] at second
      rw [Function.update_of_ne here] at first
      cases Option.some.inj second
      exact absurd same.symm (fresh i line here first)
    · rw [Function.update_of_ne here] at first
      rw [Function.update_of_ne there] at second
      exact lines.distinct i j line other first second same

def delete (lines : Lines nCols) (lineNo : ℕ) : Lines nCols where
  lineAt := fun i => if i < lineNo then lines.lineAt i else lines.lineAt (i + 1)
  made := lines.made
  earlier := by
    intro i line present
    split at present
    · exact lines.earlier i line present
    · exact lines.earlier (i + 1) line present
  distinct := by
    intro i j line other first second same
    split at first <;> split at second
    · exact lines.distinct i j line other first second same
    · have := lines.distinct i (j + 1) line other first second same
      omega
    · have := lines.distinct (i + 1) j line other first second same
      omega
    · have := lines.distinct (i + 1) (j + 1) line other first second same
      omega

def step (lines : Lines nCols) : PoolCall nCols → Option (ℕ × cacheLine nCols) × Lines nCols
  | .Get lineNo change => (some (lines.taken lineNo), lines.get lineNo change)
  | .Delete lineNo => (Option.none, lines.delete lineNo)

end Lines

namespace LinePool

structure Represents (pool : LinePool nCols) (lines : Lines nCols) : Prop where
  made : pool.made = lines.made
  held : ∀ i, pool.held i = some (lines.lineAt i)

theorem heldFrame {pool next : LinePool nCols} {i j : ℕ} (slot : next.ptr[j]? = pool.ptr[i]?)
    (lines : ∀ id, pool.ptr[i]? = some (.line id) → next.heap id = pool.heap id) :
    next.held j = pool.held i := by
  unfold held
  rw [slot]
  split
  · rfl
  · rfl
  · rename_i id here
    rw [lines id here]
  · rfl

theorem heldLine {pool : LinePool nCols} {i : ℕ} {line : ℕ × cacheLine nCols} :
    pool.held i = some (some line) ↔
      pool.ptr[i]? = some (.line line.1) ∧ pool.heap line.1 = some line.2 := by
  unfold held
  obtain ⟨id, l⟩ := line
  split
  · rename_i here
    simp [here]
  · rename_i here
    simp [here]
  · rename_i other here
    simp only [here, Option.map_eq_some_iff, Option.some.injEq, Prod.mk.injEq, Pointer.line.injEq]
    constructor
    · rintro ⟨l', present, rfl, rfl⟩
      exact ⟨rfl, present⟩
    · rintro ⟨rfl, present⟩
      exact ⟨l, present, rfl, rfl⟩
  · rename_i here
    simp [here]

theorem heldEmpty {pool : LinePool nCols} {i : ℕ} (inside : i < pool.anzLines) :
    pool.held i = some none ↔ pool.ptr[i]? = some .null := by
  unfold held
  have slot : pool.ptr[i]? = some pool.ptr[i] := List.getElem?_eq_getElem inside
  split
  · rename_i here
    simp [slot] at here
  · rename_i here
    simp [here]
  · rename_i other here
    simp [here]
  · rename_i here
    simp [here]

theorem heldOutside {pool : LinePool nCols} {i : ℕ} (outside : pool.anzLines ≤ i) : pool.held i = some none := by
  simp [held, List.getElem?_eq_none outside]

theorem filledHeld {pool : LinePool nCols} {i : ℕ} {line : Option (ℕ × cacheLine nCols)}
    (present : pool.held i = some line) : pool.IsFilled i = some line.isSome := by
  unfold held at present
  unfold IsFilled
  split at present
  · rename_i here
    cases Option.some.inj present
    simp
  · rename_i here
    cases Option.some.inj present
    simp
  · rename_i id here
    obtain ⟨l, -, rfl⟩ := Option.map_eq_some_iff.mp present
    simp
  · contradiction

theorem slotHeld {pool : LinePool nCols} {i id : ℕ} {line : Option (ℕ × cacheLine nCols)}
    (present : pool.held i = some line) (slot : pool.ptr[i]? = some (.line id)) :
    ∃ l, line = some (id, l) := by
  simp only [held, slot, Option.map_eq_some_iff] at present
  obtain ⟨l, -, rfl⟩ := present
  exact ⟨l, rfl⟩

theorem createRepresents (initialLines : ℕ) :
    (create initialLines : LinePool nCols).Represents .none where
  made := rfl
  held := by
    intro i
    rcases lt_or_ge i initialLines with inside | outside
    · simp [held, create, Lines.none, inside]
    · exact heldOutside (by simpa [create, anzLines] using outside)

@[simp] theorem createLength (initialLines : ℕ) :
    (create initialLines : LinePool nCols).anzLines = initialLines := by
  simp [create, anzLines]

theorem editHeld {pool : LinePool nCols} {lineNo : ℕ} {line : ℕ × cacheLine nCols}
    (present : pool.held lineNo = some (some line)) (change : cacheLine nCols → cacheLine nCols) :
    (pool.edit line.1 change).held lineNo = some (some (line.1, change line.2)) := by
  obtain ⟨slot, contents⟩ := heldLine.mp present
  refine heldLine.mpr ⟨slot, ?_⟩
  simp [edit, contents]

theorem editOther {pool : LinePool nCols} {id i : ℕ} (change : cacheLine nCols → cacheLine nCols)
    (other : pool.ptr[i]? ≠ some (.line id)) : (pool.edit id change).held i = pool.held i := by
  refine heldFrame rfl fun id' slot => ?_
  have differs : id' ≠ id := by
    rintro rfl
    exact other slot
  simp [edit, Function.update_of_ne differs]

theorem getHeld {pool : LinePool nCols} {lines : Lines nCols} {lineNo : ℕ}
    (represents : pool.Represents lines) (inside : lineNo < pool.anzLines) :
    ∃ next, pool.Get lineNo = some ((lines.taken lineNo).1, next) ∧
      next.held lineNo = some (some (lines.taken lineNo)) ∧
      (∀ i ≠ lineNo, next.held i = pool.held i) ∧ next.anzLines = pool.anzLines ∧
      next.made = (lines.get lineNo id).made := by
  have here := represents.held lineNo
  have grown : pool.grow lineNo = pool := if_pos inside
  cases before : lines.lineAt lineNo with
  | some line =>
    rw [before] at here
    have taken : lines.taken lineNo = line := by simp [Lines.taken, before]
    rw [taken]
    refine ⟨pool, ?_, here, fun i _ => rfl, rfl, ?_⟩
    · simp only [Get, grown, (heldLine.mp here).1]
    · simp [Lines.get, before, represents.made]
  | none =>
    rw [before] at here
    have slot := (heldEmpty inside).mp here
    have taken : lines.taken lineNo = (pool.made, .blank) := by
      simp [Lines.taken, before, represents.made]
    rw [taken]
    refine ⟨pool.newLine lineNo, ?_, ?_, ?_, ?_, ?_⟩
    · simp only [Get, grown, slot]
    · have within : lineNo < pool.ptr.length := inside
      exact heldLine.mpr ⟨by simp [newLine, within], by simp [newLine]⟩
    · intro i away
      refine heldFrame (List.getElem?_set_ne (Ne.symm away)) fun id other => ?_
      -- A line made before has another number.
      have old : id ≠ pool.made := by
        rintro rfl
        obtain ⟨l, line⟩ := slotHeld (represents.held i) other
        have bound := lines.earlier i _ line
        have same := represents.made
        dsimp only at bound
        omega
      simp [newLine, Function.update_of_ne old]
    · simp [newLine, anzLines]
    · simp [newLine, Lines.get, before, represents.made]

/- The answer of a step and the lines after it. -/
def Follows (pool : LinePool nCols) (lines : Lines nCols) (call : PoolCall nCols) (next : LinePool nCols) : Prop :=
  pool.step call = some ((lines.step call).1, next) ∧ next.Represents (lines.step call).2

theorem getFollows {pool : LinePool nCols} {lines : Lines nCols} {lineNo : ℕ}
    (represents : pool.Represents lines) (inside : lineNo < pool.anzLines)
    (change : cacheLine nCols → cacheLine nCols) :
    ∃ next, pool.Follows lines (.Get lineNo change) next ∧ next.anzLines = pool.anzLines := by
  obtain ⟨got, ok, here, others, size, made⟩ := getHeld represents inside
  refine ⟨got.edit (lines.taken lineNo).1 change, ⟨?_, ?_, ?_⟩, ?_⟩
  · simp [step, ok, (heldLine.mp here).2, Lines.step]
  · exact made
  · intro i
    by_cases same : i = lineNo
    case pos =>
      rw [same, editHeld here]
      simp [Lines.step, Lines.get]
    case neg =>
      have slot : got.ptr[i]? ≠ some (.line (lines.taken lineNo).1) := by
        intro slot
        obtain ⟨l, line⟩ := slotHeld ((others i same).trans (represents.held i)) slot
        have stays : (lines.get lineNo id).lineAt i = some ((lines.taken lineNo).1, l) :=
          (Function.update_of_ne same ..).trans line
        exact same ((lines.get lineNo id).distinct i lineNo _ _ stays (Function.update_self ..) rfl)
      rw [editOther change slot, others i same, represents.held i]
      simp [Lines.step, Lines.get, Function.update_of_ne same]
  · exact size

theorem dropOther {heap rest : ℕ → Option (cacheLine nCols)} {slot : Pointer} {id : ℕ}
    (ok : drop heap slot = some rest) (other : slot ≠ .line id) : rest id = heap id := by
  cases slot with
  | null => rw [← Option.some.inj ok]
  | uncleared => contradiction
  | line id' =>
    have differs : id ≠ id' := by
      rintro rfl
      exact other rfl
    rw [← Option.some.inj ok, Function.update_of_ne differs]

theorem dropCleared {pool : LinePool nCols} {lineNo : ℕ} {slot : Pointer}
    {line : Option (ℕ × cacheLine nCols)} (here : pool.ptr[lineNo]? = some slot)
    (present : pool.held lineNo = some line) : ∃ rest, drop pool.heap slot = some rest := by
  cases slot with
  | null => exact ⟨_, rfl⟩
  | line id => exact ⟨_, rfl⟩
  | uncleared => simp [held, here] at present

theorem movedLength {α : Type} {xs : List α} {n : ℕ} (inside : n < xs.length) (a : α) :
    (xs.take n ++ xs.drop (n + 1) ++ [a]).length = xs.length := by
  simp only [List.length_append, List.length_take, List.length_drop, List.length_singleton]
  omega

theorem movedDown {α : Type} {xs : List α} {n : ℕ} (inside : n < xs.length) (a : α) (i : ℕ) :
    (xs.take n ++ xs.drop (n + 1) ++ [a])[i]? =
      if i < n then xs[i]? else if i + 1 < xs.length then xs[i + 1]?
      else if i + 1 = xs.length then some a else none := by
  have front : (xs.take n ++ xs.drop (n + 1)).length = xs.length - 1 := by
    simp only [List.length_append, List.length_take, List.length_drop]
    omega
  split
  case isTrue before =>
    rw [List.append_assoc, List.getElem?_append_left (by rw [List.length_take]; omega),
      List.getElem?_take, if_pos before]
  case isFalse after =>
    split
    case isTrue inner =>
      rw [List.getElem?_append_left (by omega), List.getElem?_append_right (by rw [List.length_take]; omega),
        List.getElem?_drop, List.length_take]
      congr 1
      omega
    case isFalse last =>
      rw [List.getElem?_append_right (by omega), front]
      split
      case isTrue final =>
        have zero : i - (xs.length - 1) = 0 := by omega
        rw [zero]
        rfl
      case isFalse past => exact List.getElem?_eq_none (by rw [List.length_singleton]; omega)

theorem slotDistinct {pool : LinePool nCols} {lines : Lines nCols} {i j id : ℕ}
    (represents : pool.Represents lines) (first : pool.ptr[i]? = some (.line id))
    (second : pool.ptr[j]? = some (.line id)) : i = j := by
  obtain ⟨l, here⟩ := slotHeld (represents.held i) first
  obtain ⟨l', there⟩ := slotHeld (represents.held j) second
  exact lines.distinct i j _ _ here there rfl

theorem deleteFollows {pool : LinePool nCols} {lines : Lines nCols}
    (represents : pool.Represents lines) (lineNo : ℕ) :
    ∃ next, pool.Follows lines (.Delete lineNo) next ∧ next.anzLines = pool.anzLines := by
  have empty : ∀ i, pool.anzLines ≤ i → lines.lineAt i = none := fun i outside =>
    Option.some.inj ((represents.held i).symm.trans (heldOutside outside))
  rcases lt_or_ge lineNo pool.anzLines with inside | outside
  · have here : pool.ptr[lineNo]? = some pool.ptr[lineNo] := List.getElem?_eq_getElem inside
    obtain ⟨rest, ok⟩ := dropCleared here (represents.held lineNo)
    have moved := movedDown inside Pointer.null
    have others : ∀ j ≠ lineNo, ∀ id, pool.ptr[j]? = some (.line id) → rest id = pool.heap id := by
      intro j away id there
      refine dropOther ok fun same => away (slotDistinct represents there ?_)
      rw [here, same]
    refine ⟨⟨pool.ptr.take lineNo ++ pool.ptr.drop (lineNo + 1) ++ [Pointer.null], rest, pool.made⟩,
      ⟨?_, represents.made, ?_⟩, movedLength inside Pointer.null⟩
    · simp [step, Delete, here, ok, Lines.step]
    · intro i
      have slot := moved i
      simp only [Lines.step, Lines.delete]
      split
      case isTrue before =>
        rw [if_pos before] at slot
        rw [← represents.held i]
        exact heldFrame slot (others i (by omega))
      case isFalse after =>
        rw [if_neg after] at slot
        rcases lt_or_ge (i + 1) pool.ptr.length with inner | last
        · rw [if_pos inner] at slot
          rw [← represents.held (i + 1)]
          exact heldFrame slot (others (i + 1) (by omega))
        · rw [if_neg (Nat.not_lt.mpr last)] at slot
          rw [empty (i + 1) last]
          unfold held
          split at slot <;> rw [slot]
  · refine ⟨pool, ⟨?_, represents.made, fun i => ?_⟩, rfl⟩
    · simp [step, Delete, List.getElem?_eq_none outside, Lines.step]
    · rw [represents.held i]
      simp only [Lines.step, Lines.delete]
      split
      · rfl
      · rw [empty i (by omega), empty (i + 1) (by omega)]

theorem growHeld {pool : LinePool nCols} {lineNo : ℕ} (outside : pool.anzLines ≤ lineNo) :
    (pool.grow lineNo).ptr[lineNo + 99]? = some .uncleared := by
  have past : ¬lineNo < pool.anzLines := by omega
  unfold anzLines at outside
  rw [grow, if_neg past, List.getElem?_append_right (by omega), gained, anzLines, List.getElem?_append_right,
    List.getElem?_replicate, if_pos]
  all_goals simp only [List.length_replicate, cacheLinePool.pointerSize]
  all_goals omega

theorem getGrown {pool next : LinePool nCols} {lineNo : ℕ} {change : cacheLine nCols → cacheLine nCols}
    {answer : Option (ℕ × cacheLine nCols)} (outside : pool.anzLines ≤ lineNo)
    (ok : pool.step (.Get lineNo change) = some (answer, next)) : next.held (lineNo + 99) = none := by
  have garbage := growHeld outside
  simp only [step, bind, Option.bind_eq_some_iff] at ok
  obtain ⟨⟨id, got⟩, taken, l, -, last⟩ := ok
  cases Option.some.inj last
  suffices here : got.ptr[lineNo + 99]? = some .uncleared by simp [held, edit, here]
  unfold Get at taken
  simp only at taken
  split at taken
  · cases Option.some.inj taken
    exact garbage
  · cases Option.some.inj taken
    rw [newLine, List.getElem?_set_ne (by omega), garbage]
  · contradiction

/- Every call answers with the line its index stands for, and afterwards every slot leads to the line
of its index, or is empty where the index never had one. -/
def Keeps (pool : LinePool nCols) (lines : Lines nCols) : List (PoolCall nCols) → Prop
  | [] => True
  | call :: calls => ∃ next, pool.step call = some ((lines.step call).1, next) ∧
      (∀ i, next.held i = some ((lines.step call).2.lineAt i) ∧
        next.IsFilled i = some ((lines.step call).2.lineAt i).isSome) ∧
      next.Keeps (lines.step call).2 calls

def Growing (size : ℕ) : PoolCall nCols → Prop
  | .Get lineNo _ => size ≤ lineNo
  | .Delete _ => False

theorem stepFollows {pool : LinePool nCols} {lines : Lines nCols} {call : PoolCall nCols}
    (represents : pool.Represents lines) (within : ¬Growing pool.anzLines call) :
    ∃ next, pool.Follows lines call next ∧ next.anzLines = pool.anzLines := by
  cases call with
  | Get lineNo change => exact getFollows represents (Nat.lt_of_not_le within) change
  | Delete lineNo => exact deleteFollows represents lineNo

theorem keepsFrom {pool : LinePool nCols} {lines : Lines nCols} (represents : pool.Represents lines)
    (calls : List (PoolCall nCols)) :
    pool.Keeps lines calls ↔ ∀ call ∈ calls, ¬Growing pool.anzLines call := by
  induction calls generalizing pool lines with
  | nil => simp [Keeps]
  | cons call calls ih =>
    rw [List.forall_mem_cons]
    constructor
    · rintro ⟨next, ok, slots, rest⟩
      have within : ¬Growing pool.anzLines call := by
        cases call with
        | Get lineNo change =>
          intro outside
          have garbage := getGrown outside ok
          rw [(slots (lineNo + 99)).1] at garbage
          contradiction
        | Delete lineNo => exact id
      obtain ⟨next', ⟨ok', represents'⟩, size⟩ := stepFollows represents within
      rw [ok'] at ok
      cases Option.some.inj ok
      rw [ih represents', size] at rest
      exact ⟨within, rest⟩
    · rintro ⟨within, rest⟩
      obtain ⟨next, ⟨ok, represents'⟩, size⟩ := stepFollows represents within
      refine ⟨next, ok, fun i => ⟨represents'.held i, filledHeld (represents'.held i)⟩, ?_⟩
      rw [ih represents', size]
      exact rest

theorem linesKept (initialLines : ℕ) (calls : List (PoolCall nCols)) :
    (create initialLines).Keeps Lines.none calls ↔ ∀ call ∈ calls, ¬Growing initialLines call := by
  rw [keepsFrom (createRepresents initialLines), createLength]

/- The line added after the first hundred. -/
theorem linesLost : ¬(create 100 : LinePool 1).Keeps Lines.none [.Get 100 id] := by
  rintro ⟨next, ok, slots, -⟩
  have garbage := getGrown (by simp) ok
  rw [(slots 199).1] at garbage
  contradiction

end LinePool

end PgAdmin.frmEditGrid
