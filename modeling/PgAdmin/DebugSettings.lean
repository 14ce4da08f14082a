import PgAdmin.DebugGrid
import Mathlib.Logic.Function.Basic

/-! The content of the parameter grid in the settings: SaveSettings() numbers the arguments and the elements as the
argument changes from row to row, LoadSettings() goes through the rows and the numbers side by side. -/
namespace PgAdmin.dlgDirectDbg
open PgsObjects (Text)

/- What Read() gives for the keys of `Debugger/Proc`, with its defaults where there are none. -/
structure Settings where
  OID : ℤ
  args : ℕ
  arrCnt : ℕ → ℕ
  useDef : ℕ → Text
  null : ℕ → Text
  element : ℕ → ℕ → Cells

namespace Settings

def writeElement (settings : Settings) (idx i : ℕ) (cells : Cells) : Settings :=
  { settings with element := Function.update settings.element idx (Function.update (settings.element idx) i cells) }

end Settings

/- prev, idx + 1 and arrCnt. -/
structure Saver where
  settings : Settings
  prev : Option ℕ
  seen : ℕ
  arrCnt : ℕ

/- The body of the loop of SaveSettings() for a row with an argument, after prev, idx and arrCnt are set. -/
def saveCells (arg : Arg) (row : Row) (settings : Settings) (idx arrCnt : ℕ) : Settings :=
  let settings := { settings with arrCnt := Function.update settings.arrCnt idx arrCnt }
  let settings := if (arrCnt = 0 ∧ arg.IsArray) ∨ (arrCnt = 1 ∧ ¬arg.IsArray) then
      { settings with
        useDef := Function.update settings.useDef idx row.useDef
        null := Function.update settings.null idx row.cells.null }
    else settings
  if arrCnt = 0 ∧ arg.IsArray then settings else settings.writeElement idx (arrCnt - 1) row.cells

def saveRow (saver : Saver) (row : Row) : Saver :=
  match row.arg with
  | none => saver
  | some arg =>
    let seen := if saver.prev ≠ some arg.place then saver.seen + 1 else saver.seen
    let arrCnt := if saver.prev ≠ some arg.place then (if arg.IsArray then 0 else 1) else saver.arrCnt + 1
    { settings := saveCells arg row saver.settings (seen - 1) arrCnt
      prev := some arg.place
      seen := seen
      arrCnt := arrCnt }

def SaveSettings (settings : Settings) (oid : ℤ) (grid : List Row) : Settings :=
  let saver := grid.foldl saveRow ⟨{ settings with OID := oid }, none, 0, 1⟩
  { saver.settings with args := saver.seen }

/- The loop of LoadSettings() that fills one row after the other, for an argument that is no array. It ends past the
last row without value. -/
def fill (settings : Settings) (cnt : ℕ) : ℕ → ℕ → List Row → Option (List Row × List Row)
  | 0, _, grid => some ([], grid)
  | _ + 1, _, [] => none
  | n + 1, idx, row :: grid => do
    let (filled, grid) ← fill settings cnt n (idx + 1) grid
    some ({ row with cells := settings.element cnt idx } :: filled, grid)

/- The loop of LoadSettings() with the number of arguments that are left, from a row on. -/
def load (settings : Settings) (cnt : ℕ) : ℕ → List Row → Option (List Row)
  | 0, grid => some grid
  | _ + 1, [] => none
  | left + 1, row :: grid =>
    match row.arg with
    | none => (load settings cnt (left + 1) grid).map (row :: ·)
    | some arg =>
      let row := { row with cells := { row.cells with null := settings.null cnt }, useDef := settings.useDef cnt }
      let arrCnt := settings.arrCnt cnt
      if arrCnt > 0 then
        if arg.IsArray then
          let inserted := (List.range arrCnt).map fun idx => elementRow arg (settings.element cnt idx)
          (load settings (cnt + 1) left grid).map fun grid => row :: (inserted ++ grid)
        else do
          let (filled, grid) ← fill settings cnt arrCnt 0 (row :: grid)
          let grid ← load settings (cnt + 1) left grid
          some (filled ++ grid)
      else load settings (cnt + 1) left (row :: grid)
termination_by left grid => (left, grid.length)

def LoadSettings (settings : Settings) (oid : ℤ) (sig : Signature) (grid : List Row) : Option (List Row) :=
  if settings.OID ≠ oid then some grid
  else load settings 0 (min settings.args sig.args.length) grid

section Saving

structure Holds (settings : Settings) (n : ℕ) (useDef null : Text) (cells : List Cells) : Prop where
  count : settings.arrCnt n = cells.length
  useDef : settings.useDef n = useDef
  null : settings.null n = null
  element : ∀ i c, cells[i]? = some c → settings.element n i = c

theorem holdsOther {settings : Settings} {n m k : ℕ} {useDef null : Text} {cells : List Cells} (arg : Arg) (row : Row)
    (other : m ≠ n) (holds : Holds settings m useDef null cells) :
    Holds (saveCells arg row settings n k) m useDef null cells := by
  obtain ⟨count, hasDef, hasNull, element⟩ := holds
  unfold saveCells Settings.writeElement
  dsimp only
  constructor
  all_goals split <;> split <;> simpa [Function.update_of_ne other]

theorem holdsHeader (settings : Settings) (n : ℕ) (arg : Arg) (row : Row) :
    Holds (saveCells arg row settings n (if arg.IsArray then 0 else 1)) n row.useDef row.cells.null
      (if arg.IsArray then [] else [row.cells]) := by
  unfold saveCells Settings.writeElement
  cases array : arg.IsArray with
  | true => exact ⟨by simp, by simp, by simp, by simp⟩
  | false =>
    refine ⟨by simp, by simp, by simp, fun i c here => ?_⟩
    obtain ⟨rfl, rfl⟩ : i = 0 ∧ row.cells = c := by
      cases i with
      | zero => exact ⟨rfl, by simpa using here⟩
      | succ i => simp at here
    simp

theorem holdsElement {settings : Settings} {n : ℕ} {useDef null : Text} {cells : List Cells} {arg : Arg} (row : Row)
    (array : arg.IsArray = true) (holds : Holds settings n useDef null cells) :
    Holds (saveCells arg row settings n (cells.length + 1)) n useDef null (cells ++ [row.cells]) := by
  obtain ⟨count, hasDef, hasNull, element⟩ := holds
  unfold saveCells Settings.writeElement
  refine ⟨by simp [array], by simpa [array] using hasDef, by simpa [array] using hasNull, fun i c here => ?_⟩
  rcases lt_trichotomy i cells.length with before | last | behind
  · rw [List.getElem?_append_left before] at here
    have apart : i ≠ cells.length := by omega
    simpa [array, Function.update_of_ne apart] using element i c here
  · subst last
    rw [List.getElem?_concat_length] at here
    cases Option.some.inj here
    simp [array]
  · rw [List.getElem?_eq_none (by rw [List.length_append, List.length_singleton]; omega)] at here
    cases here

theorem saveNext {saver : Saver} {row : Row} {arg : Arg} (here : row.arg = some arg)
    (other : saver.prev ≠ some arg.place) : saveRow saver row =
      ⟨saveCells arg row saver.settings saver.seen (if arg.IsArray then 0 else 1), some arg.place, saver.seen + 1,
        if arg.IsArray then 0 else 1⟩ := by
  simp only [saveRow, here, if_pos other, Nat.add_sub_cancel]

theorem saveSame {saver : Saver} {row : Row} {arg : Arg} (here : row.arg = some arg)
    (same : saver.prev = some arg.place) : saveRow saver row =
      ⟨saveCells arg row saver.settings (saver.seen - 1) (saver.arrCnt + 1), some arg.place, saver.seen,
        saver.arrCnt + 1⟩ := by
  simp only [saveRow, here, same, ne_eq, not_true_eq_false, if_false]

/- The saver after the rows of an argument, the n-th one. Nothing before it has changed. -/
structure Saved (saver next : Saver) (b : Block) : Prop where
  prev : next.prev = some b.arg.place
  seen : next.seen = saver.seen + 1
  here : Holds next.settings saver.seen b.useDef b.header.null (if b.arg.IsArray then b.elements else [b.header])
  before : ∀ m useDef null cells, m < saver.seen → Holds saver.settings m useDef null cells →
    Holds next.settings m useDef null cells

theorem saveElements {b : Block} (array : b.arg.IsArray = true) {saver next : Saver} {done : List Cells}
    (saved : Saved saver next ⟨b.arg, b.header, b.useDef, done, fun scalar => by rw [array] at scalar; cases scalar⟩)
    (counted : next.arrCnt = done.length) (rest : List Cells) :
    Saved saver ((rest.map (elementRow b.arg)).foldl saveRow next)
      ⟨b.arg, b.header, b.useDef, done ++ rest, fun scalar => by rw [array] at scalar; cases scalar⟩ := by
  induction rest generalizing next done with
  | nil => simpa using saved
  | cons c rest ih =>
    obtain ⟨prev, seen, here, before⟩ := saved
    dsimp only at prev here
    have step := @saveSame next (elementRow b.arg c) b.arg rfl prev
    rw [seen, Nat.add_sub_cancel, counted] at step
    rw [List.map_cons, List.foldl_cons, List.append_cons]
    refine ih ⟨?_, ?_, ?_, ?_⟩ ?_
    · rw [step]
    · rw [step]
    · rw [step]
      simp only [array, if_true] at here ⊢
      exact holdsElement (elementRow b.arg c) array here
    · intro m useDef null cells low holds
      rw [step]
      dsimp only
      exact holdsOther _ _ (Nat.ne_of_lt low) (before m useDef null cells low holds)
    · rw [step, List.length_append, List.length_singleton]

theorem saveBlock {saver : Saver} {b : Block} (other : saver.prev ≠ some b.arg.place) :
    Saved saver (b.rows.foldl saveRow saver) b := by
  have step := @saveNext saver ⟨some b.arg, b.arg.info.m_name, b.header, b.useDef⟩ b.arg rfl other
  have header := holdsHeader saver.settings saver.seen b.arg ⟨some b.arg, b.arg.info.m_name, b.header, b.useDef⟩
  have before : ∀ m useDef null cells, m < saver.seen → Holds saver.settings m useDef null cells →
      Holds (saveRow saver ⟨some b.arg, b.arg.info.m_name, b.header, b.useDef⟩).settings m useDef null cells := by
    intro m useDef null cells low holds
    rw [step]
    exact holdsOther _ _ (Nat.ne_of_lt low) holds
  rw [Block.rows, List.foldl_cons]
  cases array : b.arg.IsArray with
  | true =>
    rw [if_pos rfl, List.foldl_append]
    refine @saveElements b array saver _ [] ⟨?_, ?_, ?_, before⟩ ?_ b.elements
    · rw [step]
    · rw [step]
    · rw [step]
      simpa only [array, if_true] using header
    · rw [step, array]
      rfl
  | false =>
    refine ⟨?_, ?_, ?_, before⟩
    · rw [if_neg (by decide), List.foldl_nil, step]
    · rw [if_neg (by decide), List.foldl_nil, step]
    · rw [if_neg (by decide), List.foldl_nil, step]
      simpa only [array, Bool.false_eq_true, if_false] using header

theorem saveBlocks {blocks : List Block} (distinct : (blocks.map fun b => b.arg.place).Nodup) {saver : Saver}
    (other : ∀ b ∈ blocks, saver.prev ≠ some b.arg.place) :
    ((gridRows blocks).foldl saveRow saver).seen = saver.seen + blocks.length ∧
      (∀ i b, blocks[i]? = some b → Holds ((gridRows blocks).foldl saveRow saver).settings (saver.seen + i) b.useDef
        b.header.null (if b.arg.IsArray then b.elements else [b.header])) ∧
      ∀ m useDef null cells, m < saver.seen → Holds saver.settings m useDef null cells →
        Holds ((gridRows blocks).foldl saveRow saver).settings m useDef null cells := by
  induction blocks generalizing saver with
  | nil => exact ⟨rfl, fun i b here => by simp at here, fun m useDef null cells _ holds => holds⟩
  | cons b blocks ih =>
    obtain ⟨apart, distinct⟩ := List.nodup_cons.mp distinct
    have saved := @saveBlock saver b (other b List.mem_cons_self)
    have next : ∀ c ∈ blocks, (b.rows.foldl saveRow saver).prev ≠ some c.arg.place := by
      intro c member same
      rw [saved.prev] at same
      exact apart (List.mem_map.mpr ⟨c, member, (Option.some.inj same).symm⟩)
    obtain ⟨seen, holds, before⟩ := ih distinct next
    have rows : (gridRows (b :: blocks)).foldl saveRow saver =
        (gridRows blocks).foldl saveRow (b.rows.foldl saveRow saver) := by
      rw [gridRows, List.flatMap_cons, List.foldl_append]
      rfl
    rw [rows]
    refine ⟨?_, ?_, ?_⟩
    · rw [seen, saved.seen, List.length_cons]
      omega
    · intro i c here
      cases i with
      | zero =>
        cases Option.some.inj here
        exact before _ _ _ _ (by rw [saved.seen]; omega) saved.here
      | succ i =>
        have later := holds i c here
        rw [saved.seen] at later
        rwa [show saver.seen + (i + 1) = saver.seen + 1 + i by omega]
    · intro m useDef null cells low hold
      exact before _ _ _ _ (by rw [saved.seen]; omega) (saved.before _ _ _ _ low hold)

end Saving

section Loading
variable {settings : Settings}

def Hollow (b : Block) : Prop := b.arg.IsArray = true ∧ b.elements = []

def AllHold (settings : Settings) : ℕ → List Block → Prop
  | _, [] => True
  | cnt, b :: later =>
    Holds settings cnt b.useDef b.header.null (if b.arg.IsArray then b.elements else [b.header]) ∧
      AllHold settings (cnt + 1) later

def loadedHeader (b : Block) : Row :=
  ⟨some b.arg, b.arg.info.m_name, if b.arg.IsArray then ⟨b.header.null, [], []⟩ else b.header, b.useDef⟩

theorem loadPlus (cnt left : ℕ) (arg : Arg) (grid : List Row) :
    load settings cnt left (plusRow arg :: grid) = (load settings cnt left grid).map (plusRow arg :: ·) := by
  cases left with
  | zero => simp [load]
  | succ left =>
    rw [load]
    rfl

theorem listedCells {cells : List Cells} {n : ℕ} (element : ∀ i c, cells[i]? = some c → settings.element n i = c) :
    (List.range cells.length).map (fun i => settings.element n i) = cells := by
  refine List.ext_getElem (by simp) fun i _ inside => ?_
  rw [List.getElem_map, List.getElem_range]
  exact element i _ (List.getElem?_eq_getElem inside)

theorem loadArray {b : Block} {cnt : ℕ} (array : b.arg.IsArray = true) (full : b.elements ≠ [])
    (holds : Holds settings cnt b.useDef b.header.null b.elements) (left : ℕ) (grid : List Row) :
    load settings cnt (left + 1) ((fresh b.arg).rows ++ grid) =
      (load settings (cnt + 1) left grid).map ((loadedHeader b :: b.rows.tail) ++ ·) := by
  obtain ⟨count, useDef, null, element⟩ := holds
  have some_ : settings.arrCnt cnt > 0 := by
    rw [count]
    exact List.length_pos_iff.mpr full
  have inserted : (List.range (settings.arrCnt cnt)).map (fun idx => elementRow b.arg (settings.element cnt idx)) =
      b.elements.map (elementRow b.arg) := by
    have listed := congrArg (List.map (elementRow b.arg)) (listedCells element)
    rw [List.map_map] at listed
    rw [count]
    exact listed
  have rows : (fresh b.arg).rows ++ grid =
      ⟨some b.arg, b.arg.info.m_name, noCells, freshUseDef b.arg.info⟩ :: plusRow b.arg :: grid := by
    simp [Block.rows, fresh, array]
  rw [rows, load]
  simp only [if_pos some_, array, if_true, inserted, loadPlus, null, useDef]
  cases load settings (cnt + 1) left grid with
  | none => rfl
  | some grid => simp [loadedHeader, Block.rows, array, noCells]

theorem loadScalar {b : Block} {cnt : ℕ} (scalar : b.arg.IsArray = false)
    (holds : Holds settings cnt b.useDef b.header.null [b.header]) (left : ℕ) (grid : List Row) :
    load settings cnt (left + 1) ((fresh b.arg).rows ++ grid) =
      (load settings (cnt + 1) left grid).map (b.rows ++ ·) := by
  obtain ⟨count, useDef, null, element⟩ := holds
  have value := element 0 b.header rfl
  have rows : (fresh b.arg).rows ++ grid =
      ⟨some b.arg, b.arg.info.m_name, noCells, freshUseDef b.arg.info⟩ :: grid := by
    simp [Block.rows, fresh, scalar]
  rw [rows, load]
  simp only [count, List.length_singleton, gt_iff_lt, Nat.zero_lt_one, if_true, scalar, Bool.false_eq_true, if_false,
    fill, value, useDef, bind, Option.bind_some]
  cases load settings (cnt + 1) left grid with
  | none => rfl
  | some grid => simp [Block.rows, scalar]

theorem loadHollow {arg : Arg} (name : Text) (cells : Cells) (old : Text) {cnt : ℕ} {useDef null : Text}
    (holds : Holds settings cnt useDef null []) (left : ℕ) (grid : List Row) :
    load settings cnt (left + 1) (⟨some arg, name, cells, old⟩ :: grid) =
      load settings (cnt + 1) left (⟨some arg, name, { cells with null := null }, useDef⟩ :: grid) := by
  obtain ⟨count, hasDef, hasNull, -⟩ := holds
  rw [load]
  simp only [count, List.length_nil, hasDef, hasNull]
  exact if_neg (Nat.lt_irrefl 0)

def overwritten : List Block → Text × Text → Text × Text
  | [], cells => cells
  | b :: later, _ => overwritten later (b.header.null, b.useDef)

theorem loadStuck {arg : Arg} (name : Text) {later : List Block} (hollow : ∀ c ∈ later, Hollow c) {cnt : ℕ}
    (holds : AllHold settings cnt later) (cells : Text × Text) (grid : List Row) :
    load settings cnt later.length (⟨some arg, name, ⟨cells.1, [], []⟩, cells.2⟩ :: grid) =
      some (⟨some arg, name, ⟨(overwritten later cells).1, [], []⟩, (overwritten later cells).2⟩ :: grid) := by
  induction later generalizing cnt cells with
  | nil => simp [load, overwritten]
  | cons c later ih =>
    obtain ⟨⟨array, empty⟩, hollow⟩ := List.forall_mem_cons.mp hollow
    obtain ⟨here, rest⟩ := holds
    rw [if_pos array, empty] at here
    rw [List.length_cons, loadHollow name _ _ here]
    exact ih hollow rest (c.header.null, c.useDef)

theorem loadShifted {arg : Arg} (array : arg.IsArray = true) (name : Text) {later : List Block}
    (full : ¬∀ c ∈ later, Hollow c) {cnt : ℕ} (holds : AllHold settings cnt later) (cells : Cells) (useDef : Text)
    (grid out : List Row) (ok : load settings cnt later.length (⟨some arg, name, cells, useDef⟩ :: grid) = some out) :
    ∃ first second rest, out = first :: second :: rest ∧ second.arg = some arg := by
  induction later generalizing cnt cells useDef with
  | nil => exact absurd (fun c member => absurd member List.not_mem_nil) full
  | cons c later ih =>
    obtain ⟨here, rest⟩ := holds
    by_cases hollow : Hollow c
    case pos =>
      rw [if_pos hollow.1, hollow.2] at here
      rw [List.length_cons, loadHollow name _ _ here] at ok
      refine ih (fun all => full ?_) rest _ _ ok
      exact List.forall_mem_cons.mpr ⟨hollow, all⟩
    case neg =>
      have some_ : settings.arrCnt cnt > 0 := by
        rw [here.count]
        refine List.length_pos_iff.mpr ?_
        split
        case isTrue isArray => exact fun empty => hollow ⟨isArray, empty⟩
        case isFalse => simp
      rw [List.length_cons, load] at ok
      simp only [if_pos some_, array, if_true, Option.map_eq_some_iff] at ok
      obtain ⟨grid', -, rfl⟩ := ok
      obtain ⟨n, more⟩ : ∃ n, settings.arrCnt cnt = n + 1 := ⟨settings.arrCnt cnt - 1, by omega⟩
      rw [more, List.range_succ_eq_map, List.map_cons]
      exact ⟨_, _, _, rfl, rfl⟩

/- Its own cells for the value and the expression mark are empty, as always before the user enters something. -/
def Bare (b : Block) : Prop := b.header.expr = [] ∧ b.header.value = []

def Untouched (b : Block) : Prop := Hollow b ∧ b.header = noCells ∧ b.useDef = freshUseDef b.arg.info

/- The content that comes back. An array without rows is the last argument, or all arguments after it are such arrays,
as they were at first, and it agrees with the last of them. -/
def Restored : List Block → Prop
  | [] => True
  | b :: later =>
    (b.arg.IsArray = true → Bare b) ∧ (¬Hollow b → Restored later) ∧
      (Hollow b → (∀ c ∈ later, Untouched c) ∧
        ∀ c ∈ later.getLast?, b.header.null = c.header.null ∧ b.useDef = c.useDef)

theorem overwrittenLast (later : List Block) (cells : Text × Text) :
    cells = overwritten later cells ↔ ∀ c ∈ later.getLast?, cells.1 = c.header.null ∧ cells.2 = c.useDef := by
  induction later generalizing cells with
  | nil => simp [overwritten]
  | cons c later ih =>
    cases later with
    | nil => simp [overwritten, Prod.ext_iff]
    | cons d later =>
      have next : overwritten (c :: d :: later) cells = overwritten (d :: later) cells := rfl
      rw [next, ih, List.getLast?_cons_cons]

theorem hollowRows {b : Block} (hollow : Hollow b) :
    b.rows = [⟨some b.arg, b.arg.info.m_name, b.header, b.useDef⟩, plusRow b.arg] := by
  simp [Block.rows, hollow.1, hollow.2]

theorem freshHollow {arg : Arg} (array : arg.IsArray = true) : Hollow (fresh arg) := ⟨array, rfl⟩

theorem untouchedRows {later : List Block} (hollow : ∀ c ∈ later, Hollow c) :
    gridRows (later.map fun c => fresh c.arg) = gridRows later ↔ ∀ c ∈ later, Untouched c := by
  induction later with
  | nil => simp [gridRows]
  | cons c later ih =>
    obtain ⟨here, rest⟩ := List.forall_mem_cons.mp hollow
    have own := hollowRows (freshHollow here.1)
    have same : (⟨some c.arg, c.arg.info.m_name, noCells, freshUseDef c.arg.info⟩ : Row) =
        ⟨some c.arg, c.arg.info.m_name, c.header, c.useDef⟩ ↔ Untouched c := by
      rw [Row.mk.injEq]
      exact ⟨fun all => ⟨here, all.2.2.1.symm, all.2.2.2.symm⟩,
        fun untouched => ⟨rfl, rfl, untouched.2.1.symm, untouched.2.2.symm⟩⟩
    have left : gridRows ((c :: later).map fun c => fresh c.arg) =
        ⟨some c.arg, c.arg.info.m_name, noCells, freshUseDef c.arg.info⟩ :: plusRow c.arg ::
          gridRows (later.map fun c => fresh c.arg) := by
      rw [gridRows, List.map_cons, List.flatMap_cons, own]
      rfl
    have right : gridRows (c :: later) = ⟨some c.arg, c.arg.info.m_name, c.header, c.useDef⟩ :: plusRow c.arg ::
        gridRows later := by
      rw [gridRows, List.flatMap_cons, hollowRows here]
      rfl
    rw [List.forall_mem_cons, ← ih rest, ← same, left, right, List.cons_eq_cons, List.cons_eq_cons]
    simp only [true_and]

theorem loadFull {b : Block} {cnt : ℕ} (full : ¬Hollow b)
    (holds : Holds settings cnt b.useDef b.header.null (if b.arg.IsArray then b.elements else [b.header]))
    (left : ℕ) (grid : List Row) : load settings cnt (left + 1) ((fresh b.arg).rows ++ grid) =
      (load settings (cnt + 1) left grid).map ((loadedHeader b :: b.rows.tail) ++ ·) := by
  cases array : b.arg.IsArray with
  | true =>
    rw [if_pos array] at holds
    exact loadArray array (fun empty => full ⟨array, empty⟩) holds left grid
  | false =>
    rw [if_neg (by simp [array])] at holds
    rw [loadScalar array holds]
    simp [loadedHeader, Block.rows, array]

theorem loadedSame (b : Block) : loadedHeader b = ⟨some b.arg, b.arg.info.m_name, b.header, b.useDef⟩ ↔
    (b.arg.IsArray = true → Bare b) := by
  obtain ⟨arg, ⟨null, expr, value⟩, useDef, elements, scalar⟩ := b
  cases array : arg.IsArray with
  | true => simp [loadedHeader, array, Bare, eq_comm]
  | false => simp [loadedHeader, array]

theorem loadHeld {blocks : List Block} {cnt : ℕ} (holds : AllHold settings cnt blocks) :
    load settings cnt blocks.length (gridRows (blocks.map fun b => fresh b.arg)) = some (gridRows blocks) ↔
      Restored blocks := by
  induction blocks generalizing cnt with
  | nil => simp [load, gridRows, Restored]
  | cons b later ih =>
    obtain ⟨here, rest⟩ := holds
    have freshRows : gridRows ((b :: later).map fun b => fresh b.arg) =
        (fresh b.arg).rows ++ gridRows (later.map fun b => fresh b.arg) := rfl
    have rows : gridRows (b :: later) = b.rows ++ gridRows later := rfl
    rw [freshRows, rows, List.length_cons, Restored]
    by_cases hollow : Hollow b
    case neg =>
      have split : b.rows = ⟨some b.arg, b.arg.info.m_name, b.header, b.useDef⟩ :: b.rows.tail := rfl
      rw [loadFull hollow here, split]
      simp only [hollow, not_false_eq_true, true_implies, false_implies, and_true, ← loadedSame, ← ih rest]
      cases load settings (cnt + 1) later.length (gridRows (later.map fun b => fresh b.arg)) with
      | none => simp
      | some grid => simp
    case pos =>
      obtain ⟨array, empty⟩ := hollow
      rw [if_pos array, empty] at here
      have head : (fresh b.arg).rows ++ gridRows (later.map fun b => fresh b.arg) =
          ⟨some b.arg, b.arg.info.m_name, noCells, freshUseDef b.arg.info⟩ :: plusRow b.arg ::
            gridRows (later.map fun b => fresh b.arg) := by
        rw [hollowRows (freshHollow array)]
        rfl
      have own : b.rows ++ gridRows later = ⟨some b.arg, b.arg.info.m_name, b.header, b.useDef⟩ ::
          plusRow b.arg :: gridRows later := by
        rw [hollowRows ⟨array, empty⟩]
        rfl
      have hollow : Hollow b := ⟨array, empty⟩
      rw [head, own, loadHollow _ _ _ here]
      simp only [hollow, array, not_true_eq_false, false_implies, true_implies, true_and]
      by_cases all : ∀ c ∈ later, Hollow c
      case pos =>
        have stuck := @loadStuck settings b.arg b.arg.info.m_name later all (cnt + 1) rest
          (b.header.null, b.useDef) (plusRow b.arg :: gridRows (later.map fun b => fresh b.arg))
        refine (Iff.of_eq (congrArg (· = _) stuck)).trans ?_
        have last := overwrittenLast later (b.header.null, b.useDef)
        rw [Option.some.injEq, List.cons_eq_cons, List.cons_eq_cons, untouchedRows all, ← last]
        constructor
        · rintro ⟨header, -, untouched⟩
          obtain ⟨-, -, cells, useDef⟩ := Row.mk.inj header
          refine ⟨⟨by rw [← cells], by rw [← cells]⟩, untouched, Prod.ext ?_ useDef.symm⟩
          exact (congrArg Cells.null cells).symm
        · rintro ⟨⟨expr, value⟩, untouched, same⟩
          refine ⟨?_, rfl, untouched⟩
          rw [← same]
          obtain ⟨arg, ⟨null, e, v⟩, useDef, elements, scalar⟩ := b
          cases expr
          cases value
          rfl
      case neg =>
        constructor
        · intro ok
          obtain ⟨first, second, others, same, inserted⟩ := loadShifted array _ all rest _ _ _ _ ok
          obtain ⟨-, second', -⟩ := List.cons_eq_cons.mp same |>.imp id List.cons_eq_cons.mp
          rw [← second'] at inserted
          cases inserted
        · rintro ⟨-, untouched, -⟩
          exact absurd (fun c member => (untouched c member).1) all

end Loading

theorem allHold {settings : Settings} {blocks : List Block} {cnt : ℕ}
    (holds : ∀ i b, blocks[i]? = some b → Holds settings (cnt + i) b.useDef b.header.null
      (if b.arg.IsArray then b.elements else [b.header])) : AllHold settings cnt blocks := by
  induction blocks generalizing cnt with
  | nil => trivial
  | cons b later ih =>
    refine ⟨holds 0 b rfl, ih fun i c here => ?_⟩
    have next := holds (i + 1) c here
    rwa [show cnt + (i + 1) = cnt + 1 + i by omega] at next

theorem holdsSettings {settings other : Settings} {n : ℕ} {useDef null : Text} {cells : List Cells}
    (holds : Holds settings n useDef null cells) (counts : other.arrCnt = settings.arrCnt)
    (defs : other.useDef = settings.useDef) (nulls : other.null = settings.null)
    (elements : other.element = settings.element) : Holds other n useDef null cells := by
  obtain ⟨count, hasDef, hasNull, element⟩ := holds
  exact ⟨by rw [counts, count], by rw [defs, hasDef], by rw [nulls, hasNull], fun i c here => by
    rw [elements, element i c here]⟩

theorem cellsOID (arg : Arg) (row : Row) (settings : Settings) (idx arrCnt : ℕ) :
    (saveCells arg row settings idx arrCnt).OID = settings.OID := by
  unfold saveCells Settings.writeElement
  dsimp only
  split_ifs <;> rfl

theorem savedOID (saver : Saver) (grid : List Row) :
    (grid.foldl saveRow saver).settings.OID = saver.settings.OID := by
  induction grid generalizing saver with
  | nil => rfl
  | cons row grid ih =>
    rw [List.foldl_cons, ih]
    unfold saveRow
    split
    · rfl
    · exact cellsOID ..

theorem savedHeld (sig : Signature) (settings : Settings) (oid : ℤ) {blocks : List Block}
    (content : blocks.map Block.arg = shown sig) :
    LoadSettings (SaveSettings settings oid (gridRows blocks)) oid sig (PopulateParamGrid sig) =
      load (SaveSettings settings oid (gridRows blocks)) 0 blocks.length (gridRows (blocks.map fun b => fresh b.arg)) ∧
      AllHold (SaveSettings settings oid (gridRows blocks)) 0 blocks := by
  have distinct : (blocks.map fun b => b.arg.place).Nodup := by
    have places := shownPlaces sig
    rwa [← content, List.map_map] at places
  obtain ⟨seen, holds, -⟩ := @saveBlocks blocks distinct ⟨{ settings with OID := oid }, none, 0, 1⟩
    fun b _ => by simp
  have count : blocks.length ≤ sig.args.length := by
    have sizes := congrArg List.length content
    rw [List.length_map] at sizes
    rw [sizes]
    refine (List.length_filter_le _ _).trans ?_
    rw [arguments, List.length_map, List.length_zipIdx]
  have number : (SaveSettings settings oid (gridRows blocks)).args = blocks.length := by
    rw [SaveSettings]
    simpa using seen
  have same : (SaveSettings settings oid (gridRows blocks)).OID = oid := savedOID _ _
  have rows : PopulateParamGrid sig = gridRows (blocks.map fun b => fresh b.arg) := by
    rw [populated, ← content, List.map_map]
    rfl
  refine ⟨?_, allHold fun i b here => holdsSettings (holds i b here) rfl rfl rfl rfl⟩
  rw [LoadSettings, if_neg fun other => other same, number, min_eq_left count, rows]

theorem settingsRestored (sig : Signature) (settings : Settings) (oid : ℤ) (blocks : List Block)
    (content : blocks.map Block.arg = shown sig) :
    LoadSettings (SaveSettings settings oid (gridRows blocks)) oid sig (PopulateParamGrid sig) =
      some (gridRows blocks) ↔ Restored blocks := by
  obtain ⟨loaded, held⟩ := savedHeld sig settings oid content
  rw [loaded]
  exact loadHeld held

section Examples

def noSettings : Settings where
  OID := -1
  args := 0
  arrCnt := fun _ => 0
  useDef := fun _ => []
  null := fun _ => []
  element := fun _ _ => noCells

def ids : Arg := ⟨0, ⟨"ids".toList, "integer[]".toList, 1007, .in, none⟩⟩

def amount : Arg := ⟨1, ⟨"amount".toList, "integer".toList, 23, .in, none⟩⟩

/- `(ids integer[], amount integer)` -/
def idsAmount : Signature where
  args := [ids.info, amount.info]
  named := by simp [ids, amount]
  variadicArray := by simp [ids, amount]
  variadicLast := by simp [ids]

def idsBlock (elements : List Cells) : Block :=
  ⟨ids, noCells, [], elements, fun scalar => absurd scalar (by decide)⟩

def amountBlock : Block := ⟨amount, ⟨[], [], "5".toList⟩, [], [], fun _ => rfl⟩

theorem twoElementsRestored :
    [idsBlock [⟨[], [], "1".toList⟩, ⟨isTrue, [], []⟩], amountBlock].map Block.arg = shown idsAmount ∧
      LoadSettings (SaveSettings noSettings 7
        (gridRows [idsBlock [⟨[], [], "1".toList⟩, ⟨isTrue, [], []⟩], amountBlock])) 7 idsAmount
        (PopulateParamGrid idsAmount) =
      some (gridRows [idsBlock [⟨[], [], "1".toList⟩, ⟨isTrue, [], []⟩], amountBlock]) := by
  refine ⟨rfl, (settingsRestored idsAmount noSettings 7 _ rfl).mpr ⟨fun _ => ⟨rfl, rfl⟩, fun _ => ?_, ?_⟩⟩
  · exact ⟨fun array => absurd array (by decide), fun _ => trivial, fun hollow => absurd hollow.1 (by decide)⟩
  · rintro ⟨-, empty⟩
    cases empty

/- The value of `amount` is loaded under `ids`. -/
theorem emptyArrayShifts : LoadSettings (SaveSettings noSettings 7 (gridRows [idsBlock [], amountBlock])) 7 idsAmount
    (PopulateParamGrid idsAmount) ≠ some (gridRows [idsBlock [], amountBlock]) := by
  obtain ⟨loaded, held⟩ := @savedHeld idsAmount noSettings 7 [idsBlock [], amountBlock] rfl
  rw [loaded, Ne, loadHeld held]
  rintro ⟨-, -, hollow⟩
  have untouched := (hollow ⟨by decide, rfl⟩).1 amountBlock List.mem_cons_self
  exact absurd untouched.1.1 (by decide)

end Examples

end PgAdmin.dlgDirectDbg
