import PgAdmin.PgsObjects

/-! cacheLinePool: an array of pointers to lines that grows on demand. Get() makes a line where
the pointer is null. The slots gained by a growth are cleared with a memset that counts bytes
where the array holds pointers, so most of them keep what the memory held before. -/
namespace PgAdmin.frmEditGrid
open PgsObjects (Text)

structure cacheLine (nCols : ℕ) where
  cols : Option (Fin nCols → Text)
  stored : Bool
  readOnly : Bool

/- cacheLine() -/
def cacheLine.blank {nCols : ℕ} : cacheLine nCols where
  cols := none
  stored := false
  readOnly := false

inductive Slot (nCols : ℕ) where
  | null
  | uncleared
  | line (l : cacheLine nCols)

structure cacheLinePool (nCols : ℕ) where
  ptr : List (Slot nCols)

variable {nCols : ℕ}

namespace cacheLinePool

def create (initialLines : ℕ) : cacheLinePool nCols := ⟨List.replicate initialLines .null⟩

def anzLines (pool : cacheLinePool nCols) : ℕ := pool.ptr.length

/- sizeof(cacheLine *) -/
def pointerSize : ℕ := 8

/- `memset(ptr + oldAnz, 0, anzLines - oldAnz)`: only whole pointers become null. -/
def gained (count : ℕ) : List (Slot nCols) :=
  List.replicate (count / pointerSize) .null ++
    List.replicate (count - count / pointerSize) .uncleared

def grow (pool : cacheLinePool nCols) (lineNo : ℕ) : cacheLinePool nCols :=
  if lineNo < pool.anzLines then pool
  else ⟨pool.ptr ++ gained (lineNo + 100 - pool.anzLines)⟩

/- No value where the slot was never cleared: the pointer read there is garbage. -/
def Get (pool : cacheLinePool nCols) (lineNo : ℕ) :
    Option (cacheLine nCols × cacheLinePool nCols) :=
  let grown := pool.grow lineNo
  match grown.ptr[lineNo]? with
  | some (.line l) => some (l, grown)
  | some .null => some (.blank, ⟨grown.ptr.set lineNo (.line .blank)⟩)
  | _ => none

/- What a write through the pointer Get() returned does. -/
def put (pool : cacheLinePool nCols) (lineNo : ℕ) (l : cacheLine nCols) : cacheLinePool nCols :=
  ⟨pool.ptr.set lineNo (.line l)⟩

def line? (pool : cacheLinePool nCols) (lineNo : ℕ) : Option (cacheLine nCols) :=
  match pool.ptr[lineNo]? with
  | some (.line l) => some l
  | _ => none

theorem lineSlot {pool : cacheLinePool nCols} {lineNo : ℕ} {l : cacheLine nCols} :
    pool.line? lineNo = some l ↔ pool.ptr[lineNo]? = some (.line l) := by
  unfold line?
  split
  · rename_i found
    simp [found]
  · rename_i other
    simpa using fun here => other l here

theorem lineInside {pool : cacheLinePool nCols} {lineNo : ℕ} {l : cacheLine nCols}
    (present : pool.line? lineNo = some l) : lineNo < pool.ptr.length :=
  (List.getElem?_eq_some_iff.mp (lineSlot.mp present)).1

@[simp] theorem createLine (initialLines lineNo : ℕ) :
    (create initialLines : cacheLinePool nCols).line? lineNo = none := by
  rw [Option.eq_none_iff_forall_not_mem]
  intro l present
  have member := List.mem_of_getElem? (lineSlot.mp present)
  exact nomatch List.eq_of_mem_replicate member

theorem createLength (initialLines : ℕ) :
    (create initialLines : cacheLinePool nCols).anzLines = initialLines := by
  simp [create, anzLines]

theorem growLine (pool : cacheLinePool nCols) (lineNo i : ℕ) :
    (pool.grow lineNo).line? i = pool.line? i := by
  unfold grow
  split
  · rfl
  rcases lt_or_ge i pool.ptr.length with inside | outside
  · simp only [line?, List.getElem?_append_left inside]
  have absent : pool.line? i = none := by simp [line?, List.getElem?_eq_none outside]
  rw [absent, Option.eq_none_iff_forall_not_mem]
  intro l present
  have slot := lineSlot.mp present
  rw [List.getElem?_append_right outside] at slot
  have member := List.mem_of_getElem? slot
  rcases List.mem_append.mp member with cleared | kept
  · exact nomatch List.eq_of_mem_replicate cleared
  · exact nomatch List.eq_of_mem_replicate kept

theorem growReaches (pool : cacheLinePool nCols) (lineNo : ℕ) :
    lineNo < (pool.grow lineNo).ptr.length := by
  unfold grow gained anzLines
  split
  · assumption
  · simp only [List.length_append, List.length_replicate, pointerSize]
    omega

theorem putLine {pool : cacheLinePool nCols} {lineNo : ℕ} {old : cacheLine nCols}
    (present : pool.line? lineNo = some old) (l : cacheLine nCols) (i : ℕ) :
    (pool.put lineNo l).line? i = if i = lineNo then some l else pool.line? i := by
  have inside := lineInside present
  unfold put line?
  by_cases same : i = lineNo
  · subst same
    simp [inside]
  · simp [List.getElem?_set_ne (Ne.symm same), same]

theorem putOther {lineNo i : ℕ} (pool : cacheLinePool nCols) (l : cacheLine nCols)
    (differs : i ≠ lineNo) : (pool.put lineNo l).line? i = pool.line? i := by
  simp [put, line?, List.getElem?_set_ne (Ne.symm differs)]

theorem getSpec {pool next : cacheLinePool nCols} {lineNo : ℕ} {l : cacheLine nCols}
    (ok : pool.Get lineNo = some (l, next)) :
    next.line? lineNo = some l ∧ (∀ i ≠ lineNo, next.line? i = pool.line? i) ∧
      (pool.line? lineNo = some l ∨ pool.line? lineNo = none ∧ l = .blank) := by
  unfold Get at ok
  have before : (pool.grow lineNo).line? lineNo = pool.line? lineNo := growLine pool lineNo lineNo
  simp only at ok
  split at ok
  · rename_i found here
    cases Option.some.inj ok
    have line : (pool.grow lineNo).line? lineNo = some l := by simp [line?, here]
    exact ⟨line, fun i _ => growLine pool lineNo i, .inl (before ▸ line)⟩
  · rename_i here
    cases Option.some.inj ok
    refine ⟨?_, ?_, .inr ⟨?_, rfl⟩⟩
    · simp [line?, growReaches]
    · intro i other
      rw [← growLine pool lineNo i]
      simp [line?, List.getElem?_set_ne (Ne.symm other)]
    · rw [← before]
      simp [line?, here]
  · contradiction

theorem getFound {pool : cacheLinePool nCols} {lineNo : ℕ} {l : cacheLine nCols}
    (present : pool.line? lineNo = some l) : pool.Get lineNo = some (l, pool) := by
  have inside : lineNo < pool.anzLines := lineInside present
  simp only [Get, grow, if_pos inside, lineSlot.mp present]

theorem getLength {pool next : cacheLinePool nCols} {lineNo : ℕ} {l : cacheLine nCols}
    (ok : pool.Get lineNo = some (l, next)) (inside : lineNo < pool.anzLines) :
    next.anzLines = pool.anzLines := by
  unfold Get grow at ok
  simp only [if_pos inside] at ok
  split at ok
  · cases Option.some.inj ok
    rfl
  · cases Option.some.inj ok
    simp [anzLines]
  · contradiction

@[simp] theorem putLength (pool : cacheLinePool nCols) (lineNo : ℕ) (l : cacheLine nCols) :
    (pool.put lineNo l).anzLines = pool.anzLines := by simp [put, anzLines]

end cacheLinePool

end PgAdmin.frmEditGrid
