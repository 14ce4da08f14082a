import PgAdmin.NetworkNumbered

/-! The update of a design whose items that are out of date do no harm: their columns are in no key, or
in one of a table from which no cycle is reached. Elsewhere it removes no key, and so it goes on along
identifying relationships only: it ends when no cycle of these is reached, and only then. -/
namespace PgAdmin.ddNetwork
open PgsObjects (Text)
open ddDesign (ddColumnFigure ddTableFigure)
open Fuelled (Ends Never)
open Relation (ReflTransGen TransGen)

variable {n m : ℕ}

namespace Network
variable (net : Network n m)

def Identifies (t u : Fin n) : Prop :=
  ∃ r ∈ net.observers t, net.fkIdentifying r = true ∧ net.startFigure r = t ∧ net.endFigure r = u

def IdentifyingFree (t : Fin n) : Prop :=
  ∀ u, ReflTransGen net.Identifies t u → ¬ TransGen net.Identifies u u

def Keyed : Prop := ∀ r, net.fkFromPk r = false → 0 ≤ net.ukIndex r

/- In no key. -/
def Plain (x : ℕ × Bool × ℤ) : Prop := x.2.1 = false ∧ x.2.2 < 0

def keyMark (r : Fin m) (x : ℕ × Bool × ℤ) : Bool :=
  if net.fkFromPk r then x.2.1 else x.2.2 = net.ukIndex r

def InKey (s : State n m) (r : Fin m) (item : ddRelationshipItem) : Prop :=
  ∃ x ∈ s.marks (net.startFigure r), item.original = some x.1 ∧ net.keyMark r x = true

/- To take the column of the item out of its table marks no items along a cycle: it is in no key, nor
soon will be, or no cycle is reached from there. -/
def Harmless (soon : Fin n → ℕ → Prop) (s : State n m) (r : Fin m) (item : ddRelationshipItem) : Prop :=
  item.fkIsAutoGenerated = true →
    keyColumn s (net.endFigure r) item.fkColumn = true ∨ soon (net.endFigure r) item.fkColumn →
      net.CycleFree (net.endFigure r)

/- What is out of date at the relationships that an update of the observers leads to does no harm. -/
structure Settled (soon : Fin n → ℕ → Prop) (s : State n m) (t : Fin n) : Prop where
  keyed : net.Keyed
  numbered : Numbered s
  harmless : ∀ r, net.Affected t r → ∀ item ∈ s.chm r, net.stale s r item = true → net.Harmless soon s r item

/- At the tables from which a cycle is reached, columns are added and some that are in no key go; those
below the identifying relationships are added to keys. New items come from the key. -/
structure Grown (u : Fin n) (s next : State n m) : Prop where
  aged : Aged s next
  marks : ∀ t, ¬ net.CycleFree t → ∃ kept more, next.marks t = kept ++ more ∧ kept.Sublist (s.marks t) ∧
    (∀ x ∈ more, s.newId ≤ x.1) ∧ (¬ TransGen net.Identifies u t → ∀ x ∈ more, Plain x)
  keys : ∀ t, ¬ net.CycleFree t → ∀ x ∈ s.marks t, ¬ Plain x → x ∈ next.marks t
  items : ∀ r, ¬ net.CycleFree (net.startFigure r) → ∀ item ∈ next.chm r,
    (∃ old ∈ s.chm r, item.original = old.original ∧ item.fkColumn = old.fkColumn ∧
      item.fkIsAutoGenerated = old.fkIsAutoGenerated) ∨ net.InKey next r item
  updated : ∀ r ∈ s.updated, r ∈ next.updated

section Growth
variable {net} {soon : Fin n → ℕ → Prop} {s next last : State n m} {t u v : Fin n} {r : Fin m}
variable {item : ddRelationshipItem}

theorem CycleFree.onward (free : net.CycleFree t) (there : ReflTransGen net.Related t u) : net.CycleFree u :=
  fun v further => free v (there.trans further)

theorem Affected.observed (affected : net.Affected t r) : r ∈ net.observers (net.startFigure r) := by
  induction affected with
  | here observed => exact observed
  | onward _ _ _ ih => exact ih

theorem plainKey (keyed : net.Keyed) {x : ℕ × Bool × ℤ} (plain : Plain x) : net.keyMark r x = false := by
  rw [keyMark]
  split
  · exact plain.1
  case isFalse fromUk =>
    have index := keyed r (by simpa using fromUk)
    have other : x.2.2 ≠ net.ukIndex r := by
      have below := plain.2
      omega
    simpa using other

theorem syncedIff (numbered : Numbered s) : net.stale s r item = false ↔ net.InKey s r item := by
  rw [stale, InKey]
  cases item.original with
  | none => simp
  | some id =>
    constructor
    · intro fresh
      simp only [Bool.or_eq_false_iff, Bool.not_eq_false', List.any_eq_true, decide_eq_true_eq] at fresh
      obtain ⟨key, c, inTable, rfl⟩ := fresh
      have member : mark c ∈ s.marks (net.startFigure r) := List.mem_map_of_mem inTable
      obtain ⟨c', found, same⟩ := columnFound numbered member
      refine ⟨mark c, member, rfl, ?_⟩
      rw [show c.id = (mark c).1 from rfl, found] at key
      exact same ▸ key
    · rintro ⟨x, member, same, key⟩
      obtain ⟨c', found, rfl⟩ := columnFound numbered member
      obtain ⟨c, inTable, marked⟩ := List.mem_map.mp member
      obtain rfl := Option.some.inj same
      have there : c.id = (mark c').1 := congrArg Prod.fst marked
      simp only [Bool.or_eq_false_iff, Bool.not_eq_false', List.any_eq_true, decide_eq_true_eq]
      exact ⟨by rw [found]; exact key, c, inTable, there⟩

theorem keyMarked {id : ℕ} (key : keyColumn s t id = true) : ∃ x ∈ s.marks t, x.1 = id ∧ ¬ Plain x := by
  rw [keyColumn, ddTableFigure.column?] at key
  cases found : (s.tables t).columns.find? fun col => col.id = id with
  | none => simp [found] at key
  | some c =>
    have same : c.id = id := by simpa using List.find?_some found
    refine ⟨mark c, List.mem_map_of_mem (List.mem_of_find?_eq_some found), same, fun plain => ?_⟩
    have other : c.isPk = false ∧ c.ukIndex < 0 := plain
    simp [found, ddColumnFigure.isPrimaryKey, ddColumnFigure.isUniqueKey, other.1, not_le.mpr other.2] at key

theorem markedKey (numbered : Numbered s) {x : ℕ × Bool × ℤ} (member : x ∈ s.marks t) (key : ¬ Plain x) :
    keyColumn s t x.1 = true := by
  obtain ⟨c, inTable, rfl⟩ := List.mem_map.mp member
  have some : ((s.tables t).columns.find? fun col => col.id = (mark c).1).isSome := by
    rw [List.find?_isSome]
    exact ⟨c, inTable, by simp [mark]⟩
  obtain ⟨c', found⟩ := Option.isSome_iff_exists.mp some
  have named : (mark c').1 = (mark c).1 := of_decide_eq_true (List.find?_some found :)
  have same := (numbered.once t t _ (List.mem_map_of_mem (List.mem_of_find?_eq_some found)) _ member named).2
  rw [keyColumn, ddTableFigure.column?, found]
  by_contra other
  simp only [Option.map_some, Option.getD_some, Bool.or_eq_true, not_or, Bool.not_eq_true,
    ddColumnFigure.isPrimaryKey, ddColumnFigure.isUniqueKey, decide_eq_false_iff_not, not_le] at other
  exact key (same ▸ other)

theorem Grown.refl : net.Grown u s s where
  aged := .refl
  marks t _ := ⟨s.marks t, [], (List.append_nil _).symm, .refl _, by simp, by simp⟩
  keys _ _ _ member _ := member
  items _ _ item member := .inl ⟨item, member, rfl, rfl, rfl⟩
  updated _ member := member

theorem Grown.kept (grown : net.Grown u s next) (keyed : net.Keyed) (cyclic : ¬ net.CycleFree (net.startFigure r))
    (key : net.InKey s r item) : net.InKey next r item := by
  obtain ⟨x, member, original, key⟩ := key
  refine ⟨x, grown.keys _ cyclic x member fun plain => ?_, original, key⟩
  rw [plainKey keyed plain] at key
  exact Bool.false_ne_true key

theorem InKey.same {old : ddRelationshipItem} (key : net.InKey s r old)
    (original : item.original = old.original) : net.InKey s r item := by
  obtain ⟨x, member, same, key⟩ := key
  exact ⟨x, member, original.trans same, key⟩

theorem Grown.trans (keyed : net.Keyed) (first : net.Grown u s next) (second : net.Grown u next last) :
    net.Grown u s last where
  aged := first.aged.trans second.aged
  marks t cyclic := by
    obtain ⟨kept, more, marks, part, fresh, plain⟩ := first.marks t cyclic
    obtain ⟨kept', more', marks', part', fresh', plain'⟩ := second.marks t cyclic
    rw [marks] at part'
    obtain ⟨kept₁, kept₂, rfl, part₁, part₂⟩ := List.sublist_append_iff.mp part'
    refine ⟨kept₁, kept₂ ++ more', by rw [marks', List.append_assoc], part₁.trans part, fun x member => ?_,
      fun away x member => ?_⟩
    · rcases List.mem_append.mp member with old | new
      · exact fresh x (part₂.subset old)
      · exact first.aged.newId.trans (fresh' x new)
    · rcases List.mem_append.mp member with old | new
      · exact plain away x (part₂.subset old)
      · exact plain' away x new
  keys t cyclic x member key := second.keys t cyclic x (first.keys t cyclic x member key) key
  items r cyclic item member := by
    rcases second.items r cyclic item member with ⟨old, inNext, original, column, made⟩ | new
    · rcases first.items r cyclic old inNext with ⟨older, inFirst, original', column', made'⟩ | key
      · exact .inl ⟨older, inFirst, original.trans original', column.trans column', made.trans made'⟩
      · exact .inr ((second.kept keyed cyclic key).same original)
    · exact .inr new
  updated r member := second.updated r (first.updated r member)

theorem Grown.above (grown : net.Grown u s next) (edge : net.Identifies t u) : net.Grown t s next where
  aged := grown.aged
  marks w cyclic := by
    obtain ⟨kept, more, marks, part, fresh, plain⟩ := grown.marks w cyclic
    exact ⟨kept, more, marks, part, fresh, fun away => plain fun there => away (TransGen.head edge there)⟩
  keys := grown.keys
  items := grown.items
  updated := grown.updated

theorem Grown.ofSame (aged : Aged s next) (same : ∀ t, ¬ net.CycleFree t → next.marks t = s.marks t)
    (items : ∀ r, ¬ net.CycleFree (net.startFigure r) → ∀ item ∈ next.chm r, ∃ old ∈ s.chm r,
      item.original = old.original ∧ item.fkColumn = old.fkColumn ∧
        item.fkIsAutoGenerated = old.fkIsAutoGenerated)
    (updated : ∀ r ∈ s.updated, r ∈ next.updated) : net.Grown u s next where
  aged := aged
  marks t cyclic := ⟨s.marks t, [], by rw [same t cyclic, List.append_nil], .refl _, by simp, by simp⟩
  keys t cyclic x member _ := same t cyclic ▸ member
  items r cyclic item member := .inl (items r cyclic item member)
  updated := updated

/- What is done below a table from which no cycle is reached is not seen where one is. -/
theorem From.marks (free : net.CycleFree v) (changed : net.From v s next) (cyclic : ¬ net.CycleFree t) :
    next.marks t = s.marks t := by
  rw [State.marks, changed.tables t fun there => cyclic (free.onward there), State.marks]

theorem From.grown (free : net.CycleFree v) (changed : net.From v s next) (aged : Aged s next) :
    net.Grown u s next := by
  refine .ofSame aged (fun t cyclic => changed.marks free cyclic) (fun r cyclic item member => ?_)
    changed.updated
  rw [changed.items r fun there => cyclic (free.onward there.2)] at member
  exact ⟨item, member, rfl, rfl, rfl⟩

theorem Grown.noKey (grown : net.Grown u s next) (cyclic : ¬ net.CycleFree t) (numbered : Numbered s) {id : ℕ}
    (old : id < s.newId) (key : keyColumn next t id = true) : keyColumn s t id = true := by
  obtain ⟨x, member, rfl, inKey⟩ := keyMarked key
  obtain ⟨kept, more, marks, part, fresh, -⟩ := grown.marks t cyclic
  rw [marks] at member
  rcases List.mem_append.mp member with there | new
  · exact markedKey numbered (part.subset there) inKey
  · exact absurd (fresh x new) (not_le.mpr old)

theorem Settled.grown (settled : net.Settled soon s t) (grown : net.Grown u s next) :
    net.Settled soon next t where
  keyed := settled.keyed
  numbered := grown.aged.numbered settled.numbered
  harmless r affected item member stale made key := by
    by_contra cyclic
    have above : ¬ net.CycleFree (net.startFigure r) := fun free =>
      cyclic (free.onward (.single (related affected.observed)))
    have out : ¬ net.InKey next r item := fun inKey => by
      rw [(syncedIff (grown.aged.numbered settled.numbered)).mpr inKey] at stale
      exact Bool.false_ne_true stale
    obtain ⟨old, inOld, original, column, made'⟩ := (grown.items r above item member).resolve_right out
    have stale' : net.stale s r old = true := by
      by_contra fresh
      exact out ((grown.kept settled.keyed above
        ((syncedIff settled.numbered).mp (Bool.eq_false_iff.mpr fresh))).same original)
    refine cyclic (settled.harmless r affected old inOld stale' (made' ▸ made) (key.imp (fun key => ?_) fun key => ?_))
    · rw [column] at key
      exact grown.noKey cyclic settled.numbered (settled.numbered.items r old inOld) key
    · exact column ▸ key

theorem Settled.onward (settled : net.Settled soon s (net.startFigure r))
    (observed : r ∈ net.observers (net.startFigure r)) (identifying : net.fkIdentifying r = true) :
    net.Settled soon s (net.endFigure r) where
  keyed := settled.keyed
  numbered := settled.numbered
  harmless r' affected := settled.harmless r' (.onward observed identifying affected)

end Growth

/- Columns go, none comes. -/
structure Shrunk (u : Fin n) (s next : State n m) : Prop where
  grown : net.Grown u s next
  part : ∀ t, ¬ net.CycleFree t → (next.marks t).Sublist (s.marks t)

def Grows (soon : Fin n → ℕ → Prop) (t : Fin n) : Prop :=
  ∀ s : State n m, net.Settled soon s t → Ends (fun depth => net.updateFkObservers depth s t) fun next =>
    net.Grown t s next ∧ ∀ r, net.Affected t r → r ∈ next.updated

section Update
variable {net} {soon : Fin n → ℕ → Prop} {s : State n m} {t u : Fin n} {r : Fin m} {column : ddColumnFigure}

theorem syncNamesGrown (s : State n m) (r : Fin m) : net.Grown u s (net.syncNames s r) := by
  have aged := syncNamesAged net s r
  unfold syncNames at aged ⊢
  cases found : renamed? s r with
  | none => exact .refl
  | some pair =>
    obtain ⟨item, column⟩ := pair
    have inItems := renamedMember found
    rw [found] at aged
    simp only [Option.elim_some, syncAutoFkName] at aged ⊢
    refine .ofSame aged (fun w _ => marksKept (changeKeeps _ _ fun c => ?_) w) (fun r' _ item' member => ?_)
      fun _ member => member
    · split <;> rfl
    · by_cases own : r' = r
      · subst own
        simp only [onTable_chm, onItems_own] at member
        rw [eraseItem, List.mem_filter] at member
        rcases setItemMember member.1 with old | rfl
        · exact ⟨item', old, rfl, rfl, rfl⟩
        · exact ⟨item, inItems, rfl, rfl, rfl⟩
      · simp only [onTable_chm, onItems_other own] at member
        exact ⟨item', member, rfl, rfl, rfl⟩

theorem itemMadeGrown {a : State n m} (observed : r ∈ net.observers (net.startFigure r))
    (cyclic : ¬ net.CycleFree (net.startFigure r)) (keyed : net.Keyed)
    (inTable : column ∈ (s.tables (net.startFigure r)).columns) (key : net.sourceKey r column = true)
    (grown : net.Grown (net.startFigure r) { s with newId := s.newId + 1 } a) :
    net.Grown (net.startFigure r) s (net.itemMade a s r column) := by
  have kept : ∀ w, ∀ x ∈ a.marks w, x ∈ (net.itemMade a s r column).marks w := by
    intro w x member
    rw [itemMadeMarks]
    split
    · exact List.mem_append_left _ member
    · exact member
  refine ⟨itemMadeAged grown.aged column, fun w cyclic => ?_, fun w cyclic x member inKey => ?_,
    fun r' cyclic' item member => ?_, grown.updated⟩
  · obtain ⟨kept, more, marks, part, fresh, plain⟩ := grown.marks w cyclic
    have fresh' : ∀ x ∈ more, s.newId ≤ x.1 := fun x member => (Nat.le_succ _).trans (fresh x member)
    rw [itemMadeMarks]
    split
    case isTrue same =>
      refine ⟨kept, more ++ [(s.newId, net.fkIdentifying r, -1)], by rw [marks, List.append_assoc], part,
        fun x member => ?_, fun away x member => ?_⟩
      · rcases List.mem_append.mp member with old | new
        · exact fresh' x old
        · exact (List.mem_singleton.mp new ▸ le_rfl : s.newId ≤ x.1)
      · rcases List.mem_append.mp member with old | new
        · exact plain away x old
        · obtain rfl := List.mem_singleton.mp new
          refine ⟨?_, Int.negSucc_lt_zero 0⟩
          by_contra identifying
          exact away (.single ⟨r, observed, by simpa using identifying, rfl, same.symm⟩)
    case isFalse => exact ⟨kept, more, marks, part, fresh', plain⟩
  · exact kept w x (grown.keys w cyclic x member inKey)
  · rcases itemMadeItem member with old | ⟨rfl, rfl⟩
    · refine (grown.items r' cyclic' item old).imp_right fun inKey => ?_
      obtain ⟨x, inTable, rest⟩ := inKey
      exact ⟨x, kept _ x inTable, rest⟩
    · have inKey : ¬ Plain (mark column) := fun plain =>
        Bool.false_ne_true ((plainKey keyed plain).symm.trans key)
      exact .inr ⟨mark column, kept _ _ (grown.keys _ cyclic _ (List.mem_map_of_mem inTable) inKey), rfl, key⟩

theorem Shrunk.refl : net.Shrunk u s s := ⟨.refl, fun _ _ => .refl _⟩

theorem Shrunk.trans {next last : State n m} (keyed : net.Keyed) (first : net.Shrunk u s next)
    (second : net.Shrunk u next last) : net.Shrunk u s last where
  grown := first.grown.trans keyed second.grown
  part t cyclic := (second.part t cyclic).trans (first.part t cyclic)

theorem From.shrunk {next : State n m} (free : net.CycleFree t) (changed : net.From t s next) (aged : Aged s next) :
    net.Shrunk u s next where
  grown := changed.grown free aged
  part _ cyclic := changed.marks free cyclic ▸ .refl _

theorem eraseShrunk (name : Text) : net.Shrunk u s (s.onItems r fun items => eraseItem items name) where
  grown := by
    refine .ofSame (eraseAged name) (fun _ _ => rfl) (fun r' _ item member => ?_) fun _ member => member
    by_cases own : r' = r
    · subst own
      rw [onItems_own] at member
      exact ⟨item, List.mem_of_mem_filter member, rfl, rfl, rfl⟩
    · rw [onItems_other own] at member
      exact ⟨item, member, rfl, rfl, rfl⟩
  part _ _ := .refl _

theorem plainShrunk (id : ℕ) : net.Shrunk u s (s.onTable t fun t => makePlain t id) := by
  have same : ∀ w, (s.onTable t fun t => makePlain t id).marks w = s.marks w :=
    marksKept (changeKeeps _ id fun _ => rfl)
  exact ⟨.ofSame (plainAged id) (fun w _ => same w) (fun _ _ item member => ⟨item, member, rfl, rfl, rfl⟩)
    fun _ member => member, fun w _ => same w ▸ .refl _⟩

theorem droppedShrunk (numbered : Numbered s) {id : ℕ} (plain : keyColumn s t id = false) :
    net.Shrunk u s (s.onTable t fun t => dropFigure t id) := by
  have part : ∀ w, ((s.onTable t fun t => dropFigure t id).marks w).Sublist (s.marks w) := by
    intro w
    rw [marksUpdated]
    split
    case isTrue same => exact same ▸ List.filter_sublist.map mark
    case isFalse => exact .refl _
  refine ⟨⟨.dropped t id, fun w _ => ⟨_, [], (List.append_nil _).symm, part w, by simp, by simp⟩,
    fun w _ x member key => ?_, fun _ _ item member => .inl ⟨item, member, rfl, rfl, rfl⟩,
    fun _ member => member⟩, fun w _ => part w⟩
  rw [marksUpdated]
  split
  case isTrue same =>
    subst same
    obtain ⟨c, inTable, rfl⟩ := List.mem_map.mp member
    refine List.mem_map_of_mem (List.mem_filter.mpr ⟨inTable, ?_⟩)
    have other : c.id ≠ id := by
      rintro rfl
      exact Bool.false_ne_true (plain.symm.trans (markedKey numbered member key))
    simpa using other
  case isFalse => exact member

theorem removalEnds {item : ddRelationshipItem} (cyclic : ¬ net.CycleFree (net.startFigure r))
    (numbered : Numbered s) (harmless : net.Harmless soon s r item) :
    Ends (fun depth => if item.fkIsAutoGenerated then net.removeColumn depth s (net.endFigure r) item.fkColumn
      else some (s.onTable (net.endFigure r) fun t => makePlain t item.fkColumn)) fun next =>
      net.Shrunk (net.startFigure r) s next ∧ next.chm r = s.chm r := by
  by_cases made : item.fkIsAutoGenerated = true
  · simp only [made, if_true]
    cases key : keyColumn s (net.endFigure r) item.fkColumn with
    | true =>
      have free := harmless made (.inl key)
      have acc : Acc (fun u v => net.Related v u) (net.endFigure r) := Fuelled.accessible free
      refine ((removeEnds acc (updatesEnd acc) s item.fkColumn).also fun depth _ ran =>
        (runsAge net depth).remove ran).mono ?_
      rintro next ⟨⟨changed, -⟩, aged⟩
      exact ⟨changed.shrunk free aged, changed.items r fun there => cyclic (free.onward there.2)⟩
    | false =>
      have drop : Ends (fun _ : ℕ => some (s.onTable (net.endFigure r) fun t => dropFigure t item.fkColumn))
          fun next => net.Shrunk (net.startFigure r) s next ∧ next.chm r = s.chm r :=
        .pure ⟨droppedShrunk numbered key, rfl⟩
      refine drop.level fun depth => ?_
      unfold keyColumn at key
      rw [removeColumn]
      simp only [key, Bool.false_eq_true, if_false, Option.map_some]
  · simp only [made, Bool.false_eq_true, if_false]
    exact .pure ⟨plainShrunk item.fkColumn, rfl⟩

theorem dropLoopSettled (observed : r ∈ net.observers (net.startFigure r))
    (cyclic : ¬ net.CycleFree (net.startFigure r)) (settled : net.Settled soon s (net.startFigure r)) :
    Ends (fun depth => net.dropLoop depth s r) (net.Shrunk (net.startFigure r) s) := by
  induction count : (s.chm r).length using Nat.strong_induction_on generalizing s with
  | _ count' ih =>
    cases found : (s.chm r).find? (net.stale s r) with
    | none =>
      refine (Ends.pure (a := s) .refl).level fun depth => ?_
      rw [dropLoop, found]
    | some item =>
      have member : item ∈ s.chm r := List.mem_of_find?_eq_some found
      have harmless := settled.harmless r (.here observed) item member (List.find?_some found)
      refine ((removalEnds cyclic settled.numbered harmless).bind fun a removed => ?_).level fun depth => by
        rw [dropLoop, found]
      have shrunk := removed.1.trans settled.keyed (eraseShrunk (r := r) item.originalStartColName)
      refine (ih _ ?_ (settled.grown shrunk.grown) rfl).mono fun next rest => shrunk.trans settled.keyed rest
      rw [onItems_own, removed.2, ← count, eraseItem]
      exact List.length_filter_lt_length_iff_exists.mpr ⟨item, member, by simp⟩

theorem addItemSettled (observed : r ∈ net.observers (net.startFigure r))
    (cyclic : ¬ net.CycleFree (net.startFigure r))
    (updates : net.fkIdentifying r = true → net.Grows soon (net.endFigure r))
    (settled : net.Settled soon s (net.startFigure r))
    (inTable : column ∈ (s.tables (net.startFigure r)).columns) :
    Ends (fun depth => net.addItem depth s r column) fun next =>
      net.Grown (net.startFigure r) s next ∧ (net.sourceKey r column = false → next = s) := by
  let known := (s.chm r).any fun item => item.originalStartColName = column.columnName
  let counted : State n m := { s with newId := s.newId + 1 }
  by_cases new : (net.sourceKey r column && !known) = true
  · have key : net.sourceKey r column = true := (Bool.and_eq_true _ _ ▸ new).1
    have insert : ∀ a : State n m, net.Grown (net.startFigure r) counted a →
        Ends (fun _ => some (net.itemMade a s r column)) fun next =>
          net.Grown (net.startFigure r) s next ∧ (net.sourceKey r column = false → next = s) :=
      fun a grown => .pure ⟨itemMadeGrown observed cyclic settled.keyed inTable key grown,
        fun other => absurd (key.symm.trans other) Bool.true_eq_false.mp⟩
    by_cases identifying : net.fkIdentifying r = true
    · have edge : net.Identifies (net.startFigure r) (net.endFigure r) := ⟨r, observed, identifying, rfl, rfl⟩
      have count : net.Grown (net.startFigure r) s counted := .ofSame (.counted (Nat.le_succ _) rfl rfl)
        (fun _ _ => rfl) (fun _ _ item member => ⟨item, member, rfl, rfl, rfl⟩) fun _ member => member
      have ready := (settled.onward observed identifying).grown count
      refine ((updates identifying counted ready).bind fun a first => insert a (first.1.above edge)).level
        fun depth => ?_
      rw [addItem]
      simp only [known] at new
      simp only [new, identifying, if_true, Option.map_eq_bind]
      rfl
    · refine (insert counted .refl).level fun depth => ?_
      rw [addItem]
      simp only [known] at new
      simp only [new, identifying, Bool.false_eq_true, if_true, if_false, Option.map_some]
      rfl
  · refine (Ends.pure (a := s) ⟨.refl, fun _ => rfl⟩).level fun depth => ?_
    rw [addItem]
    simp only [known] at new
    simp only [new, Bool.false_eq_true, if_false]

/- The key columns of the source that are left from a place on. -/
def keysFrom (net : Network n m) (s : State n m) (r : Fin m) (place : ℕ) : ℕ :=
  ((s.marks (net.startFigure r)).drop place).countP (net.keyMark r)

theorem keysShrunk {next : State n m} (cyclic : ¬ net.CycleFree (net.startFigure r))
    (shrunk : net.Shrunk (net.startFigure r) s next) (place : ℕ) :
    net.keysFrom next r place ≤ net.keysFrom s r place :=
  ((shrunk.part _ cyclic).drop place).countP_le

theorem keysGrown {next : State n m} (cyclic : ¬ net.CycleFree (net.startFigure r)) (keyed : net.Keyed)
    (own : ¬ TransGen net.Identifies (net.startFigure r) (net.startFigure r))
    (grown : net.Grown (net.startFigure r) s next) (place : ℕ) :
    net.keysFrom next r place ≤ net.keysFrom s r place := by
  obtain ⟨kept, more, marks, part, -, plain⟩ := grown.marks _ cyclic
  have none : (more.drop (place - kept.length)).countP (net.keyMark r) = 0 := by
    refine List.countP_eq_zero.mpr fun x member => ?_
    rw [plainKey keyed (plain own x (List.mem_of_mem_drop member))]
    exact Bool.false_ne_true
  rw [keysFrom, marks, List.drop_append, List.countP_append, none]
  exact (part.drop place).countP_le

theorem columnLoopSettled (observed : r ∈ net.observers (net.startFigure r))
    (cyclic : ¬ net.CycleFree (net.startFigure r))
    (own : ¬ TransGen net.Identifies (net.startFigure r) (net.startFigure r))
    (updates : net.fkIdentifying r = true → net.Grows soon (net.endFigure r))
    (settled : net.Settled soon s (net.startFigure r)) (place : ℕ) :
    Ends (fun depth => net.columnLoop depth s r place) (net.Grown (net.startFigure r) s) := by
  induction keys : net.keysFrom s r place using Nat.strong_induction_on generalizing s place with
  | _ keys' fewer =>
    induction left : (s.marks (net.startFigure r)).length - place
      using Nat.strong_induction_on generalizing s place with
    | _ left' shorter =>
      cases here : (s.tables (net.startFigure r)).columns[place]? with
      | none =>
        refine (Ends.pure (a := s) .refl).level fun depth => ?_
        rw [columnLoop, here]
      | some column =>
        obtain ⟨inside, there⟩ := List.getElem?_eq_some_iff.mp here
        have inMarks : place < (s.marks (net.startFigure r)).length := by
          rwa [State.marks, List.length_map]
        have split : (s.marks (net.startFigure r)).drop place =
            mark column :: (s.marks (net.startFigure r)).drop (place + 1) := by
          rw [List.drop_eq_getElem_cons inMarks]
          simp only [State.marks, List.getElem_map, there]
        have onward : ∀ b : State n m, net.Grown (net.startFigure r) s b →
            (net.sourceKey r column = false → net.Shrunk (net.startFigure r) s b) →
            Ends (fun depth => net.columnLoop depth b r (place + 1)) (net.Grown (net.startFigure r) s) := by
          intro b grown shrunk
          have ready := settled.grown grown
          have fewerLeft := keysGrown cyclic settled.keyed own grown (place + 1)
          by_cases key : net.sourceKey r column = true
          · have counted : net.keyMark r (mark column) = true := key
            refine (fewer _ ?_ ready (place + 1) rfl).mono fun next after => grown.trans settled.keyed after
            rw [← keys]
            refine fewerLeft.trans_lt ?_
            rw [keysFrom, keysFrom, split, List.countP_cons_of_pos counted]
            exact Nat.lt_succ_self _
          · have plain : ¬ net.keyMark r (mark column) = true := key
            have same : net.keysFrom s r (place + 1) = keys' := by
              rw [← keys, keysFrom, keysFrom, split, List.countP_cons_of_neg plain]
            rw [same] at fewerLeft
            refine Ends.mono ?_ fun next after => grown.trans settled.keyed after
            rcases fewerLeft.lt_or_eq with less | equal
            · exact fewer _ less ready (place + 1) rfl
            · refine shorter _ ?_ ready (place + 1) equal rfl
              have part := ((shrunk (by simpa using key)).part _ cyclic).length_le
              omega
        have turn : Ends (fun depth => (net.addItem depth s r column).bind fun a =>
            (net.dropLoop depth a r).bind fun b => net.columnLoop depth b r (place + 1))
            (net.Grown (net.startFigure r) s) := by
          refine (addItemSettled observed cyclic updates settled (List.mem_of_getElem? here)).bind fun a added => ?_
          obtain ⟨grown, same⟩ := added
          refine (dropLoopSettled observed cyclic (settled.grown grown)).bind fun b shrunk => ?_
          exact onward b (grown.trans settled.keyed shrunk.grown) fun plain => same plain ▸ shrunk
        exact turn.level fun depth => by rw [columnLoop, here]

theorem updateForeignKeySettled (observed : r ∈ net.observers (net.startFigure r))
    (cyclic : ¬ net.CycleFree (net.startFigure r))
    (own : ¬ TransGen net.Identifies (net.startFigure r) (net.startFigure r))
    (updates : net.fkIdentifying r = true → net.Grows soon (net.endFigure r))
    (settled : net.Settled soon s (net.startFigure r)) :
    Ends (fun depth => net.updateForeignKey depth s r) fun next =>
      net.Grown (net.startFigure r) s next ∧ r ∈ next.updated ∧
        (net.fkIdentifying r = true → ∀ r', net.Affected (net.endFigure r) r' → r' ∈ next.updated) := by
  let logged : State n m := { s with updated := s.updated ++ [r] }
  have front : net.Grown (net.startFigure r) s logged := .ofSame (.counted le_rfl rfl rfl) (fun _ _ => rfl)
    (fun _ _ item member => ⟨item, member, rfl, rfl, rfl⟩) fun _ member => List.mem_append_left _ member
  have listed : r ∈ logged.updated := List.mem_append_right _ (List.mem_singleton_self r)
  have synced : net.Grown (net.startFigure r) logged (net.syncNames logged r) := syncNamesGrown logged r
  have names := front.trans settled.keyed synced
  have kept := synced.updated r listed
  have ready := settled.grown names
  have loop := columnLoopSettled observed cyclic own updates ready 0
  by_cases identifying : net.fkIdentifying r = true
  · have edge : net.Identifies (net.startFigure r) (net.endFigure r) := ⟨r, observed, identifying, rfl, rfl⟩
    refine (loop.bind fun a first => (updates identifying a
      ((ready.grown first).onward observed identifying)).mono fun next second => ?_).level fun depth => ?_
    · have step := first.trans settled.keyed (second.1.above edge)
      exact ⟨names.trans settled.keyed step, step.updated r kept, fun _ => second.2⟩
    · rw [updateForeignKey]
      simp only [identifying, if_true]
      rfl
  · refine (loop.mono fun next first => ?_).level fun depth => ?_
    · exact ⟨names.trans settled.keyed first, first.updated r kept, fun yes => absurd yes identifying⟩
    · rw [updateForeignKey]
      simp only [identifying, Bool.false_eq_true, if_false]
      exact Option.bind_fun_some _

theorem freeGrows (free : net.CycleFree t) : net.Grows soon t := by
  intro s _
  have acc : Acc (fun u v => net.Related v u) t := Fuelled.accessible free
  refine ((updatesEnd acc s).also fun depth _ ran => (runsAge net depth).observers ran).mono ?_
  rintro next ⟨⟨below, all⟩, aged⟩
  exact ⟨below.from.grown free aged, all⟩

/-- The update of the observers in a settled design ends and gets to every relationship it leads to. -/
theorem settledEnds (acc : Acc (fun u v => net.Identifies v u) t) : net.Grows soon t := by
  induction acc with
  | intro t down ih =>
    by_cases free : net.CycleFree t
    case pos => exact freeGrows free
    intro s settled
    have own : ¬ TransGen net.Identifies t t := Fuelled.cycleFree ⟨t, down⟩ _ .refl
    let after (front : List (Fin m)) (next : State n m) : Prop :=
      net.Grown t s next ∧ ∀ r ∈ front, net.startFigure r = t → r ∈ next.updated ∧
        (net.fkIdentifying r = true → ∀ r', net.Affected (net.endFigure r) r' → r' ∈ next.updated)
    have loop : Ends (fun depth => (net.observers t).foldlM (fun s r =>
        if net.startFigure r = t then net.updateForeignKey depth s r else some s) s)
        (after (net.observers t)) := by
      refine Ends.foldlM _ ⟨.refl, fun r member => absurd member List.not_mem_nil⟩ ?_
      rintro front r back split a ⟨grown, done⟩
      have observed : r ∈ net.observers t := split ▸ List.mem_append_right _ List.mem_cons_self
      by_cases starts : net.startFigure r = t
      · simp only [if_pos starts]
        have updates : net.fkIdentifying r = true → net.Grows soon (net.endFigure r) := fun identifying =>
          ih _ ⟨r, observed, identifying, starts, rfl⟩
        refine (updateForeignKeySettled (starts ▸ observed) (starts ▸ free) (starts ▸ own) updates
          (starts ▸ settled.grown grown)).mono ?_
        rintro b ⟨grown', listed, rest⟩
        rw [starts] at grown'
        refine ⟨grown.trans settled.keyed grown', fun r' member starts' => ?_⟩
        rcases List.mem_append.mp member with old | new
        · obtain ⟨listed', rest'⟩ := done r' old starts'
          exact ⟨grown'.updated r' listed', fun yes r'' reached =>
            grown'.updated r'' (rest' yes r'' reached)⟩
        · obtain rfl := List.mem_singleton.mp new
          exact ⟨listed, rest⟩
      · simp only [if_neg starts]
        refine .pure ⟨grown, fun r' member starts' => ?_⟩
        rcases List.mem_append.mp member with old | new
        · exact done r' old starts'
        · exact absurd (List.mem_singleton.mp new ▸ starts') starts
    refine (loop.level fun depth => by rw [updateFkObservers]).mono ?_
    rintro next ⟨grown, done⟩
    refine ⟨grown, fun r reached => ?_⟩
    cases reached with
    | here observed => exact (done r observed rfl).1
    | onward observed identifying rest => exact (done _ observed rfl).2 identifying r rest

theorem updateNever (cyclic : ¬ Acc (fun u v => net.Identifies v u) t) (depth : ℕ) (s : State n m) :
    net.updateFkObservers depth s t = none := by
  induction depth using Nat.strong_induction_on generalizing t s with
  | _ depth ih =>
    cases depth with
    | zero => rw [updateFkObservers]
    | succ depth =>
      obtain ⟨u, ⟨r, observed, identifying, starts, ends⟩, cyclic'⟩ : ∃ u, net.Identifies t u ∧
          ¬ Acc (fun u v => net.Identifies v u) u := by
        by_contra none
        exact cyclic ⟨t, fun u edge => by_contra fun endless => none ⟨u, edge, endless⟩⟩
      rw [updateFkObservers]
      refine Fuelled.neverFoldlM observed (fun a => ?_) s
      rw [if_pos starts]
      cases depth with
      | zero => rw [updateForeignKey]
      | succ depth =>
        rw [updateForeignKey, Option.bind_eq_none_iff]
        intro b _
        rw [if_pos identifying, ends]
        exact ih depth (by omega) cyclic' b

end Update
end Network
end PgAdmin.ddNetwork
