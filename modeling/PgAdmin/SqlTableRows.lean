import PgAdmin.SqlTable

/-! What a row of the data grid shows, and how GetLine and a write through a line change it. No
two rows share a slot, and the result is closed only when each of its rows is in the pool. -/
namespace PgAdmin.frmEditGrid
open PgsObjects (Text)
open PendingEdit (Sheet)

variable {nCols : ℕ}

namespace cacheLinePool

def Slot.isFilled : Slot nCols → Bool
  | .line l => l.cols.isSome
  | _ => false

def filled (pool : cacheLinePool nCols) : ℕ := pool.ptr.countP Slot.isFilled

theorem createFilled (initialLines : ℕ) :
    (create initialLines : cacheLinePool nCols).filled = 0 := by
  simp [filled, create, List.countP_replicate, Slot.isFilled]

theorem countSet {α : Type} (p : α → Bool) {list : List α} {i : ℕ} (inside : i < list.length)
    (a : α) : (list.set i a).countP p + (p list[i]).toNat = list.countP p + (p a).toNat := by
  rw [List.countP_set inside]
  have counted : p list[i] = true → 0 < list.countP p := fun holds =>
    List.countP_pos_iff.mpr ⟨list[i], List.getElem_mem inside, holds⟩
  generalize p list[i] = old at *
  generalize p a = new
  cases old <;> cases new <;> simp only [Bool.toNat, cond, if_true] <;> grind

theorem putFilled {pool : cacheLinePool nCols} {lineNo : ℕ} {old : cacheLine nCols}
    (present : pool.line? lineNo = some old) (l : cacheLine nCols) :
    (pool.put lineNo l).filled + old.cols.isSome.toNat = pool.filled + l.cols.isSome.toNat := by
  obtain ⟨inside, slot⟩ := List.getElem?_eq_some_iff.mp (lineSlot.mp present)
  have count := countSet Slot.isFilled inside (.line l)
  rw [slot] at count
  exact count

theorem getFilled {pool next : cacheLinePool nCols} {lineNo : ℕ} {l : cacheLine nCols}
    (ok : pool.Get lineNo = some (l, next)) (inside : lineNo < pool.anzLines) :
    next.filled = pool.filled := by
  unfold Get grow at ok
  simp only [if_pos inside] at ok
  split at ok
  · cases Option.some.inj ok
    rfl
  · rename_i found
    cases Option.some.inj ok
    obtain ⟨within, slot⟩ := List.getElem?_eq_some_iff.mp found
    have count := countSet Slot.isFilled within (.line .blank)
    rw [slot] at count
    exact count
  · contradiction

theorem allFilled {pool : cacheLinePool nCols} (all : pool.filled = pool.anzLines) {lineNo : ℕ}
    {l : cacheLine nCols} (present : pool.line? lineNo = some l) : l.cols.isSome := by
  have each := List.countP_eq_length.mp all
  exact each _ (List.mem_of_getElem? (lineSlot.mp present))

end cacheLinePool

namespace sqlTable

variable (t : Opened nCols)

def line? (s : sqlTable nCols) (row : ℕ) : Option (cacheLine nCols) :=
  if row < s.fetchedRows t then s.dataPool.line? (s.lineIndex row)
  else s.addPool.line? (row - s.fetchedRows t)

def original (s : sqlTable nCols) (row : ℕ) : Fin nCols → Text :=
  if row < s.fetchedRows t then t.fetched (s.lineIndex row) else blankCells

def cells (s : sqlTable nCols) (row : ℕ) : Fin nCols → Text :=
  ((s.line? t row).bind cacheLine.cols).getD (s.original t row)

def sheet (s : sqlTable nCols) : Sheet ℕ (Fin nCols) Text where
  shown := s.cells t
  last := s.lastRow
  saved := s.savedLine

structure Mapped (s : sqlTable nCols) : Prop where
  inside : ∀ row < s.fetchedRows t, s.lineIndex row < t.nRows
  distinct : ∀ row < s.fetchedRows t, ∀ other < s.fetchedRows t,
    s.lineIndex row = s.lineIndex other → row = other
  whole : s.dataPool.anzLines = t.nRows
  cached : s.rowsCached = s.dataPool.filled
  closed : s.thread = false → s.rowsCached = t.nRows

structure Framed (s next : sqlTable nCols) : Prop where
  rowsDeleted : next.rowsDeleted = s.rowsDeleted
  lineIndex : next.lineIndex = s.lineIndex
  lastRow : next.lastRow = s.lastRow
  savedLine : next.savedLine = s.savedLine

variable {t} {s next : sqlTable nCols}

theorem Framed.fetchedRows (framed : Framed s next) : next.fetchedRows t = s.fetchedRows t := by
  unfold sqlTable.fetchedRows
  rw [framed.rowsDeleted]

theorem Framed.original (framed : Framed s next) : next.original t = s.original t := by
  funext row
  unfold sqlTable.original
  rw [framed.fetchedRows, framed.lineIndex]

theorem getLineFramed {row : ℕ} {l : cacheLine nCols} (ok : s.GetLine t row = some (l, next)) :
    Framed s next := by
  unfold GetLine at ok
  split at ok
  · obtain ⟨⟨_, pool⟩, _, made⟩ := Option.map_eq_some_iff.mp ok
    cases made
    constructor <;> rfl
  · obtain ⟨⟨_, pool⟩, _, made⟩ := Option.map_eq_some_iff.mp ok
    cases made
    constructor <;> rfl

theorem putLineFramed (s : sqlTable nCols) (row : ℕ) (l : cacheLine nCols) :
    Framed s (s.putLine t row l) := by
  unfold putLine
  split <;> constructor <;> rfl

theorem getLineSpec {row : ℕ} {l : cacheLine nCols} (mapped : Mapped t s)
    (ok : s.GetLine t row = some (l, next)) :
    next.line? t row = some l ∧ (∀ i ≠ row, next.line? t i = s.line? t i) ∧
      (s.line? t row = some l ∨ s.line? t row = none ∧ l = .blank) := by
  have rows := (getLineFramed ok).fetchedRows (t := t)
  unfold GetLine at ok
  unfold line?
  rw [rows]
  split at ok
  · rename_i fetched
    obtain ⟨⟨_, pool⟩, got, made⟩ := Option.map_eq_some_iff.mp ok
    cases made
    obtain ⟨here, others, before⟩ := cacheLinePool.getSpec got
    simp only [if_pos fetched]
    refine ⟨here, ?_, before⟩
    intro i differs
    split
    · rename_i fetchedToo
      exact others _ fun same => differs (mapped.distinct i fetchedToo row fetched same)
    · rfl
  · rename_i added
    obtain ⟨⟨_, pool⟩, got, made⟩ := Option.map_eq_some_iff.mp ok
    cases made
    obtain ⟨here, others, before⟩ := cacheLinePool.getSpec got
    simp only [if_neg added]
    refine ⟨here, ?_, before⟩
    intro i differs
    split
    · rfl
    · exact others _ (by omega)

theorem getLineMapped {row : ℕ} {l : cacheLine nCols} (mapped : Mapped t s)
    (ok : s.GetLine t row = some (l, next)) : Mapped t next := by
  unfold GetLine at ok
  split at ok
  · rename_i fetched
    obtain ⟨⟨_, pool⟩, got, made⟩ := Option.map_eq_some_iff.mp ok
    cases made
    have inside : s.lineIndex row < s.dataPool.anzLines :=
      mapped.whole ▸ mapped.inside row fetched
    exact ⟨mapped.inside, mapped.distinct, (cacheLinePool.getLength got inside).trans mapped.whole,
      mapped.cached.trans (cacheLinePool.getFilled got inside).symm, mapped.closed⟩
  · obtain ⟨⟨_, pool⟩, got, made⟩ := Option.map_eq_some_iff.mp ok
    cases made
    exact ⟨mapped.inside, mapped.distinct, mapped.whole, mapped.cached, mapped.closed⟩

theorem getLineCells {row : ℕ} {l : cacheLine nCols} (mapped : Mapped t s)
    (ok : s.GetLine t row = some (l, next)) : next.cells t = s.cells t := by
  obtain ⟨here, others, before⟩ := getLineSpec mapped ok
  funext i
  unfold cells
  rw [(getLineFramed ok).original]
  by_cases same : i = row
  · subst same
    rcases before with present | ⟨absent, fresh⟩
    · rw [here, present]
    · rw [here, absent, fresh]
      rfl
  · rw [others i same]

theorem putLineLine {row : ℕ} {old : cacheLine nCols} (mapped : Mapped t s)
    (present : s.line? t row = some old) (l : cacheLine nCols) (i : ℕ) :
    (s.putLine t row l).line? t i = if i = row then some l else s.line? t i := by
  have rows := (putLineFramed (t := t) s row l).fetchedRows (t := t)
  unfold line? at *
  rw [rows]
  unfold putLine
  split at present
  · rename_i fetched
    simp only [if_pos fetched, cacheLinePool.putLine present]
    by_cases same : i = row
    · subst same
      simp [fetched]
    · rw [if_neg same]
      split
      · rename_i fetchedToo
        rw [if_neg fun equal => same (mapped.distinct i fetchedToo row fetched equal)]
      · rfl
  · rename_i added
    simp only [if_neg added, cacheLinePool.putLine present]
    by_cases same : i = row
    · subst same
      simp [added]
    · rw [if_neg same]
      split
      · rfl
      · rw [if_neg (by omega)]

theorem putLineCells {row : ℕ} {old : cacheLine nCols} (mapped : Mapped t s)
    (present : s.line? t row = some old) (l : cacheLine nCols) {new : Fin nCols → Text}
    (filled : l.cols = some new) :
    (s.putLine t row l).cells t = Function.update (s.cells t) row new := by
  funext i
  unfold cells
  rw [putLineLine mapped present, (putLineFramed s row l).original]
  by_cases same : i = row
  · subst same
    simp [filled]
  · simp [same]

theorem putLineMapped {row : ℕ} {old : cacheLine nCols} (mapped : Mapped t s)
    (present : s.line? t row = some old) (l : cacheLine nCols)
    (alike : row < s.fetchedRows t → l.cols.isSome = old.cols.isSome) :
    Mapped t (s.putLine t row l) := by
  unfold line? at present
  unfold putLine
  split at present
  · rename_i fetched
    rw [if_pos fetched]
    have count := cacheLinePool.putFilled present l
    rw [alike fetched] at count
    exact ⟨mapped.inside, mapped.distinct, (cacheLinePool.putLength ..).trans mapped.whole,
      mapped.cached.trans (Nat.add_right_cancel count).symm, mapped.closed⟩
  · rename_i added
    rw [if_neg added]
    exact ⟨mapped.inside, mapped.distinct, mapped.whole, mapped.cached, mapped.closed⟩

end sqlTable

end PgAdmin.frmEditGrid
