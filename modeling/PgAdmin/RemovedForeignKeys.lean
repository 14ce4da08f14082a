import PgAdmin.NetworkChanges

/-! The columns a relationship made go with it. Taking them out ends, but where one of them is in a key of
a table from which a cycle of relationships is reached. -/
namespace PgAdmin.ddNetwork
open ddDesign (ddColumnFigure ddTableFigure)
open Fuelled (Ends Never)
open Relation (ReflTransGen TransGen)

variable {n m : ℕ}

namespace Network
variable (net : Network n m)

section Keys
variable {s : State n m} {t u : Fin n} {id : ℕ}

theorem keyColumn_congr {next : State n m} (same : next.tables u = s.tables u) :
    keyColumn next u id = keyColumn s u id := by
  rw [keyColumn, keyColumn, same]

theorem dropKeeps (plain : keyColumn s u id = false) (other : ℕ) :
    keyColumn (s.onTable u fun t => dropFigure t id) u other = keyColumn s u other := by
  have table : (s.onTable u fun t => dropFigure t id).tables u = dropFigure (s.tables u) id :=
    Function.update_self u _ s.tables
  by_cases own : other = id
  · subst own
    have none : (dropFigure (s.tables u) other).column? other = none := by
      rw [ddTableFigure.column?, dropFigure, List.find?_eq_none]
      intro c member
      simpa using (List.mem_filter.mp member).2
    rw [plain, keyColumn, table, none]
    rfl
  · have same : (dropFigure (s.tables u) id).column? other = (s.tables u).column? other := by
      rw [ddTableFigure.column?, ddTableFigure.column?, dropFigure, List.find?_filter]
      refine List.find?_congr fun c _ => ?_
      by_cases here : c.id = other <;> simp [here, own]
    rw [keyColumn, keyColumn, table, same]

theorem plainKeeps (id other : ℕ) :
    keyColumn (s.onTable u fun t => makePlain t id) u other = keyColumn s u other := by
  have table : (s.onTable u fun t => makePlain t id).tables u = makePlain (s.tables u) id :=
    Function.update_self u _ s.tables
  have column : (makePlain (s.tables u) id).column? other = ((s.tables u).column? other).map fun c =>
      if c.id = id then { c with usedAsFkDestFor := false } else c := by
    rw [ddTableFigure.column?, ddTableFigure.column?, makePlain, ddTableFigure.change, List.find?_map]
    congr 1
    refine List.find?_congr fun c _ => ?_
    simp only [Function.comp_apply]
    split <;> rfl
  rw [keyColumn, keyColumn, table, column, Option.map_map]
  cases (s.tables u).column? other with
  | none => rfl
  | some c =>
    simp only [Option.map_some, Function.comp_apply]
    split <;> rfl

end Keys

def Blocked (s : State n m) (r : Fin m) : Prop :=
  ¬ net.CycleFree (net.endFigure r) ∧ ∃ item ∈ s.chm r, item.fkIsAutoGenerated = true ∧
    keyColumn s (net.endFigure r) item.fkColumn = true

/- The items of a relationship are kept by their names. -/
def Named (s : State n m) (r : Fin m) : Prop := ((s.chm r).map (·.originalStartColName)).Nodup

structure Kept (r : Fin m) (s next : State n m) : Prop where
  own : next.chm r = []
  keys : ∀ u, ¬ net.CycleFree u → ∀ id, keyColumn next u id = keyColumn s u id
  items : ∀ r', r' ≠ r → ¬ net.CycleFree (net.endFigure r') → next.chm r' = s.chm r'

section Removal
variable {net} {s next : State n m} {r : Fin m} {item : ddRelationshipItem}

theorem emptied {depth : ℕ} (result : net.removeForeignKeys depth s r = some next) : next.chm r = [] := by
  induction depth generalizing s with
  | zero => cases result
  | succ depth ih =>
    rw [removeForeignKeys] at result
    split at result
    · exact Option.some.inj result ▸ onItems_own
    · obtain ⟨a, -, rest⟩ := Option.bind_eq_some_iff.mp result
      exact ih rest

theorem removedTwice {depth : ℕ} (result : net.removeForeignKeys depth s r = some next) (other : Network n m) :
    other.removeForeignKeys depth next r = some next := by
  have none := emptied result
  cases depth with
  | zero => cases result
  | succ depth =>
    rw [removeForeignKeys, none]
    have same : Function.update next.chm r [] = next.chm := none ▸ Function.update_eq_self r next.chm
    show some { next with chm := Function.update next.chm r [] } = some next
    rw [same]

theorem eraseShorter (member : item ∈ s.chm r) {a : State n m} (same : a.chm r = s.chm r) :
    ((a.onItems r fun items => eraseItem items item.originalStartColName).chm r).length <
      (s.chm r).length := by
  rw [onItems_own, same, eraseItem]
  refine List.length_filter_lt_length_iff_exists.mpr ⟨item, member, ?_⟩
  simp

theorem acyclicRemoved (acc : Acc (fun u v => net.Related v u) (net.endFigure r)) (s : State n m) :
    Ends (fun depth => net.removeForeignKeys depth s r) fun next => next.chm r = [] ∧
      (∀ t, ¬ ReflTransGen net.Related (net.endFigure r) t → next.tables t = s.tables t) ∧
      ∀ r', r' ≠ r → ¬ net.Reached (net.endFigure r) r' → next.chm r' = s.chm r' := by
  have away : ¬ net.Reached (net.endFigure r) r := fun back =>
    Fuelled.cycleFree acc _ .refl (TransGen.tail' back.2 (related back.1))
  induction count : (s.chm r).length using Nat.strong_induction_on generalizing s with
  | _ count' ih =>
    cases found : (s.chm r).find? fun item =>
      ((s.tables (net.endFigure r)).column? item.fkColumn).isSome with
    | none =>
      have last : Ends (fun _ : ℕ => some (s.onItems r fun _ => [])) fun next => next.chm r = [] ∧
          (∀ t, ¬ ReflTransGen net.Related (net.endFigure r) t → next.tables t = s.tables t) ∧
          ∀ r', r' ≠ r → ¬ net.Reached (net.endFigure r) r' → next.chm r' = s.chm r' :=
        .pure ⟨onItems_own, fun _ _ => rfl, fun _ other _ => onItems_other other⟩
      refine last.level fun depth => ?_
      rw [removeForeignKeys]
      simp only [found]
    | some item =>
      have member := List.mem_of_find?_eq_some found
      have again : ∀ a : State n m, net.From (net.endFigure r) s a →
          Ends (fun depth => net.removeForeignKeys depth
            (a.onItems r fun items => eraseItem items item.originalStartColName) r) fun next =>
            next.chm r = [] ∧
              (∀ t, ¬ ReflTransGen net.Related (net.endFigure r) t → next.tables t = s.tables t) ∧
              ∀ r', r' ≠ r → ¬ net.Reached (net.endFigure r) r' → next.chm r' = s.chm r' := by
        intro a reached
        have shorter := eraseShorter member (reached.items r away)
        refine (ih _ (count ▸ shorter) _ rfl).mono fun next ⟨own, tables, items⟩ => ⟨own, fun t far => ?_,
          fun r' other far => ?_⟩
        · exact (tables t far).trans (reached.tables t far)
        · exact (items r' other far).trans ((onItems_other other).trans (reached.items r' far))
      by_cases auto : item.fkIsAutoGenerated = true
      · refine ((removeEnds acc (updatesEnd acc) s item.fkColumn).bind fun a first =>
          again a first.1).level fun depth => ?_
        rw [removeForeignKeys]
        simp only [found, auto, if_true]
      · have plain : Ends (fun _ : ℕ => some (s.onTable (net.endFigure r) fun t =>
            makePlain t item.fkColumn)) (net.From (net.endFigure r) s) :=
          .pure (From.onTable (fun t => makePlain t item.fkColumn))
        refine (plain.bind again).level fun depth => ?_
        rw [removeForeignKeys]
        simp only [found, auto, Bool.false_eq_true, if_false]

def giveUp (net : Network n m) (s : State n m) (r : Fin m) (item : ddRelationshipItem) : State n m :=
  s.onTable (net.endFigure r) fun t =>
    if item.fkIsAutoGenerated then dropFigure t item.fkColumn else makePlain t item.fkColumn

theorem giveUpKeeps (plain : item.fkIsAutoGenerated = true →
    keyColumn s (net.endFigure r) item.fkColumn = false) (u : Fin n) (id : ℕ) :
    keyColumn (giveUp net s r item) u id = keyColumn s u id := by
  by_cases own : u = net.endFigure r
  · subst own
    rw [giveUp]
    by_cases auto : item.fkIsAutoGenerated = true
    · simp only [auto, if_true]
      exact dropKeeps (plain auto) id
    · simp only [auto, Bool.false_eq_true, if_false]
      exact plainKeeps _ id
  · exact keyColumn_congr (onTable_other own)

theorem plainItem (plain : item.fkIsAutoGenerated = true →
    keyColumn s (net.endFigure r) item.fkColumn = false) (depth : ℕ) :
    (if item.fkIsAutoGenerated then net.removeColumn (depth + 1) s (net.endFigure r) item.fkColumn
      else some (s.onTable (net.endFigure r) fun t => makePlain t item.fkColumn)) =
        some (giveUp net s r item) := by
  by_cases auto : item.fkIsAutoGenerated = true
  · have key := plain auto
    unfold keyColumn at key
    simp only [giveUp, auto, if_true, removeColumn, key, Bool.false_eq_true, if_false, Option.map_some]
  · simp only [giveUp, auto, Bool.false_eq_true, if_false]

theorem plainRemoved (s : State n m) (plain : ∀ item ∈ s.chm r, item.fkIsAutoGenerated = true →
    keyColumn s (net.endFigure r) item.fkColumn = false) :
    Ends (fun depth => net.removeForeignKeys depth s r) fun next => next.chm r = [] ∧
      (∀ u id, keyColumn next u id = keyColumn s u id) ∧ ∀ r', r' ≠ r → next.chm r' = s.chm r' := by
  induction count : (s.chm r).length using Nat.strong_induction_on generalizing s with
  | _ count' ih =>
    cases found : (s.chm r).find? fun item =>
      ((s.tables (net.endFigure r)).column? item.fkColumn).isSome with
    | none =>
      have last : Ends (fun _ : ℕ => some (s.onItems r fun _ => [])) fun next => next.chm r = [] ∧
          (∀ u id, keyColumn next u id = keyColumn s u id) ∧ ∀ r', r' ≠ r → next.chm r' = s.chm r' :=
        .pure ⟨onItems_own, fun _ _ => rfl, fun _ other => onItems_other other⟩
      refine last.level fun depth => ?_
      rw [removeForeignKeys]
      simp only [found]
    | some item =>
      have member := List.mem_of_find?_eq_some found
      have keeps := giveUpKeeps (plain item member)
      have shorter := eraseShorter (a := giveUp net s r item) member rfl
      have left : ∀ other ∈ ((giveUp net s r item).onItems r fun items =>
          eraseItem items item.originalStartColName).chm r, other.fkIsAutoGenerated = true →
          keyColumn (giveUp net s r item) (net.endFigure r) other.fkColumn = false := by
        intro other inRest auto
        rw [onItems_own] at inRest
        rw [keeps]
        exact plain other (List.mem_filter.mp inRest).1 auto
      have first : Ends (fun depth => if item.fkIsAutoGenerated then
            net.removeColumn depth s (net.endFigure r) item.fkColumn
          else some (s.onTable (net.endFigure r) fun t => makePlain t item.fkColumn))
          (· = giveUp net s r item) :=
        ⟨_, rfl, 1, fun depth large => by
          obtain ⟨depth, rfl⟩ : ∃ k, depth = k + 1 := ⟨depth - 1, by omega⟩
          exact plainItem (plain item member) depth⟩
      have again : ∀ a : State n m, a = giveUp net s r item →
          Ends (fun depth => net.removeForeignKeys depth
            (a.onItems r fun items => eraseItem items item.originalStartColName) r) fun next =>
            next.chm r = [] ∧ (∀ u id, keyColumn next u id = keyColumn s u id) ∧
              ∀ r', r' ≠ r → next.chm r' = s.chm r' := by
        rintro a rfl
        refine (ih _ (count ▸ shorter) _ left rfl).mono fun next ⟨own, keys, items⟩ =>
          ⟨own, fun u id => (keys u id).trans (keeps u id), fun r' other => ?_⟩
        exact (items r' other).trans (onItems_other other)
      refine (first.bind again).level fun depth => ?_
      rw [removeForeignKeys]
      simp only [found]

theorem unblockedRemoved (free : ¬ net.Blocked s r) :
    Ends (fun depth => net.removeForeignKeys depth s r) (net.Kept r s) := by
  by_cases acyclic : net.CycleFree (net.endFigure r)
  · have acc : Acc (fun u v => net.Related v u) (net.endFigure r) := Fuelled.accessible acyclic
    refine (acyclicRemoved acc s).mono fun next ⟨own, tables, items⟩ => ⟨own, fun u cyclic id => ?_,
      fun r' other cyclic => ?_⟩
    · exact keyColumn_congr (tables u fun there => cyclic (Fuelled.cycleFree (Fuelled.reachedAccessible acc there)))
    · exact items r' other fun there => cyclic (Fuelled.cycleFree
        ((Fuelled.reachedAccessible acc there.2).inv (related there.1)))
  · have plain : ∀ item ∈ s.chm r, item.fkIsAutoGenerated = true →
        keyColumn s (net.endFigure r) item.fkColumn = false := fun item member auto =>
      Bool.eq_false_iff.mpr fun key => free ⟨acyclic, item, member, auto, key⟩
    exact (plainRemoved s plain).mono fun next ⟨own, keys, items⟩ =>
      ⟨own, fun u _ => keys u, fun r' other _ => items r' other⟩

theorem blockedNever (named : Named s r) (blocked : net.Blocked s r) :
    Never fun depth => net.removeForeignKeys depth s r := by
  obtain ⟨cyclic, item, member, auto, key⟩ := blocked
  intro depth
  induction depth generalizing s with
  | zero => rfl
  | succ depth ih =>
    cases found : (s.chm r).find? fun item =>
      ((s.tables (net.endFigure r)).column? item.fkColumn).isSome with
    | none =>
      have absent := List.find?_eq_none.mp found item member
      simp only [Bool.not_eq_true, Option.isSome_eq_false_iff, Option.isNone_iff_eq_none] at absent
      rw [keyColumn, absent] at key
      cases key
    | some first =>
      have inItems := List.mem_of_find?_eq_some found
      simp only [removeForeignKeys, found]
      by_cases plain : first.fkIsAutoGenerated = true →
          keyColumn s (net.endFigure r) first.fkColumn = false
      · cases depth with
        | zero =>
          rw [Option.bind_eq_none_iff]
          exact fun _ _ => rfl
        | succ depth =>
          rw [plainItem plain, Option.bind_some]
          have differ : item ≠ first := by
            rintro rfl
            rw [plain auto] at key
            cases key
          refine ih ?_ ?_ ((giveUpKeeps plain _ _).trans key)
          · rw [Named, onItems_own]
            exact named.sublist (List.filter_sublist.map _)
          · rw [onItems_own, eraseItem, List.mem_filter]
            refine ⟨member, ?_⟩
            have names := List.inj_on_of_nodup_map named member inItems
            simpa using fun same => differ (names same)
      · have both : first.fkIsAutoGenerated = true ∧
            keyColumn s (net.endFigure r) first.fkColumn = true := by
          rw [Classical.not_imp] at plain
          exact ⟨plain.1, by simpa using plain.2⟩
        have never : net.removeColumn depth s (net.endFigure r) first.fkColumn = none :=
          removeNever (fun acc => cyclic (Fuelled.cycleFree acc)) s first.fkColumn both.2 depth
        simp only [both.1, if_true, never, Option.bind_none]

end Removal

section Sequence

/- Relationships give up their columns one after another; what observes the tables changes between. -/
def removals (depth : ℕ) (s : State n m) (entries : List ((Fin n → List (Fin m)) × Fin m)) :
    Option (State n m) :=
  entries.foldlM (fun s e => (net.observedBy e.1).removeForeignKeys depth s e.2) s

variable {net} {s next : State n m} {first later : (Fin n → List (Fin m)) × Fin m}

theorem fewerFree (fewer : ∀ t, later.1 t ⊆ first.1 t) {t : Fin n}
    (free : (net.observedBy first.1).CycleFree t) : (net.observedBy later.1).CycleFree t := by
  have edge : ∀ a b, (net.observedBy later.1).Related a b → (net.observedBy first.1).Related a b :=
    fun a b ⟨r, observed, ends⟩ => ⟨r, fewer a observed, ends⟩
  exact fun u reached cycle => free u (ReflTransGen.mono edge t u reached) (TransGen.mono edge u u cycle)

theorem laterBlocked (fewer : ∀ t, later.1 t ⊆ first.1 t) (differ : first.2 ≠ later.2)
    (kept : (net.observedBy first.1).Kept first.2 s next) :
    (net.observedBy later.1).Blocked next later.2 ↔ (net.observedBy later.1).Blocked s later.2 := by
  refine and_congr_right fun cyclic => ?_
  have cyclic' := fun free => cyclic (fewerFree fewer free)
  rw [kept.items later.2 differ.symm cyclic']
  refine exists_congr fun item => and_congr_right fun _ => and_congr_right fun _ => ?_
  rw [kept.keys _ cyclic']

/-- The removals end just when none of the relationships is blocked in the design as it is. -/
theorem removalsEnd {entries : List ((Fin n → List (Fin m)) × Fin m)}
    (fewer : entries.Pairwise fun e e' => e.2 ≠ e'.2 ∧ ∀ t, e'.1 t ⊆ e.1 t)
    (named : ∀ e ∈ entries, ¬ (net.observedBy e.1).CycleFree (net.endFigure e.2) → Named s e.2) :
    Ends (fun depth => net.removals depth s entries) (fun _ => True) ↔
      ∀ e ∈ entries, ¬ (net.observedBy e.1).Blocked s e.2 := by
  induction entries generalizing s with
  | nil => exact ⟨fun _ e member => absurd member List.not_mem_nil, fun _ => .pure trivial⟩
  | cons first rest ih =>
    obtain ⟨fewerFirst, fewerRest⟩ := List.pairwise_cons.mp fewer
    by_cases blocked : (net.observedBy first.1).Blocked s first.2
    · refine ⟨fun ⟨a, _, enough, all⟩ => ?_, fun none => absurd blocked (none first List.mem_cons_self)⟩
      have never := blockedNever (named first List.mem_cons_self blocked.1) blocked enough
      have answer := all enough le_rfl
      simp only [removals, List.foldlM_cons, never] at answer
      cases answer
    · obtain ⟨next, kept, enough, ended⟩ := unblockedRemoved blocked
      have later : ∀ e ∈ rest, ((net.observedBy e.1).Blocked next e.2 ↔ (net.observedBy e.1).Blocked s e.2) :=
        fun e member => laterBlocked (fewerFirst e member).2 (fewerFirst e member).1 kept
      have namedRest : ∀ e ∈ rest, ¬ (net.observedBy e.1).CycleFree (net.endFigure e.2) → Named next e.2 := by
        intro e member cyclic
        have same := kept.items e.2 (fewerFirst e member).1.symm fun free =>
          cyclic (fewerFree (fewerFirst e member).2 free)
        rw [Named, same]
        exact named e (List.mem_cons_of_mem _ member) cyclic
      have step : ∀ depth, enough ≤ depth →
          net.removals depth s (first :: rest) = net.removals depth next rest := by
        intro depth large
        have here : (net.observedBy first.1).removeForeignKeys depth s first.2 = some next := ended depth large
        rw [removals, List.foldlM_cons, here]
        rfl
      have tail : Ends (fun depth => net.removals depth s (first :: rest)) (fun _ => True) ↔
          Ends (fun depth => net.removals depth next rest) fun _ => True := by
        constructor <;> rintro ⟨a, -, enough', all⟩ <;>
          refine ⟨a, trivial, max enough enough', fun depth large => ?_⟩
        · exact (step depth (le_of_max_le_left large)).symm.trans (all depth (le_of_max_le_right large))
        · exact (step depth (le_of_max_le_left large)).trans (all depth (le_of_max_le_right large))
      rw [tail, ih fewerRest namedRest, List.forall_mem_cons, and_iff_right blocked]
      exact forall₂_congr fun e member => not_congr (later e member)

end Sequence
end Network
end PgAdmin.ddNetwork
