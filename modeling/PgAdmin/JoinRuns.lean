import Mathlib.Data.List.Induction
import PgAdmin.JoinSteps

/-! What holds of the joins over whole runs, and what each step needs for it. -/
namespace PgAdmin.gqbJoins
open Model LinkLists

/- A join with both ends is once at its source, once at its destination and once in the grid; a join in any
of these lists has tables of the query at its ends. -/
structure JoinLists (m : Model) : Prop where
  rows : ∀ j ∈ m.joins, (m.join j).isSome
  once : ∀ j join s d, m.join j = some join → join.owner = some s → join.destination = some d →
    (m.own s).count j = 1 ∧ (m.registered d).count j = 1 ∧ m.joins.count j = 1
  tables : ∀ j join, m.join j = some join →
    (j ∈ m.joins ∨ ∃ t, j ∈ m.own t ∨ j ∈ m.registered t) →
    ∀ t, join.owner = some t ∨ join.destination = some t → t ∈ m.queryCollection

/- After a column has been selected for an end, the row has a join with this end and else as before. -/
def Chosen (m : Model) (op : Op) (m' : Model) : Prop :=
  match op with
  | .choose row isSource table column => ∀ item join, m.joins[row]? = some item → m.join item = some join →
    gqbJoinsPopUp.offers m join isSource table column → ∃ item', m'.joins[row]? = some item' ∧
      m'.join item' = some (join.withEnd isSource table column)
  | _ => True

/- What a step needs: tables of the query, rows of the grid and joins that are linked; a column that the end
does not have in another table; and no join with one end only at a table that is deleted. -/
def Keeps (emptied : Bool) (m : Model) : Op → Prop
  | .addTable _ | .addRow => True
  | .drawJoin joinSource _ joinDest joinDCol => joinDest = joinSource ∨ joinDCol = none ∨
    joinSource ∈ m.queryCollection ∧ joinDest ∈ m.queryCollection
  | .choose row isSource table column => row < m.joins.length ∧
    ∀ item join, m.joins[row]? = some item → m.join item = some join →
      gqbJoinsPopUp.offers m join isSource table column → join.column? isSource = some column →
      join.table? isSource = some table
  | .setKind row _ => row < m.joins.length
  | .deleteJoin item => (m.link item).isSome
  | .deleteRow pos => m.joins = [] ∨ pos < m.joins.length
  | .deleteTable table => table ∈ m.queryCollection ∧
    (∀ j ∈ m.joins, ∀ join, m.join j = some join → join.ends = none → join.owner ≠ some table ∧
      join.destination ≠ some table) ∧
    (emptied = true ∨ ∀ j e, m.link j = some e → ¬ At table e)

section Steps
variable {emptied : Bool} {m m' : Model}

theorem keptLists (kept : m.Kept) : JoinLists m where
  rows := kept.live
  once j join s d here owner destination := by
    have linked := linkSome here (gqbQueryJoin.endsSome.mpr ⟨owner, destination⟩)
    refine ⟨(kept.indexed.own s).count ⟨_, linked, rfl⟩, (kept.indexed.registered d).count ⟨_, linked, rfl⟩, ?_⟩
    exact List.count_eq_one_of_mem kept.rows (kept.linked j (Option.isSome_of_mem linked))
  tables j join here listed t set := by
    have row : j ∈ m.joins := by
      rcases listed with row | ⟨u, own | registered⟩
      · exact row
      · obtain ⟨e, linked, -⟩ := ((kept.indexed.own u).2 j).mp own
        exact kept.linked j (Option.isSome_of_mem linked)
      · obtain ⟨e, linked, -⟩ := ((kept.indexed.registered u).2 j).mp registered
        exact kept.linked j (Option.isSome_of_mem linked)
    rcases set with owner | destination
    · exact (kept.within j row join here true).1 t owner
    · exact (kept.within j row join here false).1 t destination

theorem drawJoin_kept (kept : m.Kept) (s : ℕ) (sCol : Option ℕ) (d : ℕ) (dCol : Option ℕ)
    (able : d = s ∨ dCol = none ∨ s ∈ m.queryCollection ∧ d ∈ m.queryCollection) :
    ∃ m', gqbView.drawJoin m s sCol d dCol = some m' ∧ m'.Kept := by
  unfold gqbView.drawJoin
  split
  · exact ⟨m, rfl, kept⟩
  case isFalse other =>
    cases dCol with
    | none => exact ⟨m, rfl, kept⟩
    | some dCol =>
      obtain ⟨source, destination⟩ := (able.resolve_left other).resolve_left (Option.some_ne_none dCol)
      have added := linkAdded kept (gqbQueryJoin.endsSome.mpr ⟨rfl, rfl⟩ :
        (⟨some s, some d, sCol, some dCol, .equally⟩ : gqbQueryJoin).ends = some (s, d))
      dsimp only
      rw [addJoin_eq kept source destination]
      refine ⟨_, rfl, appendedKept kept added ?_⟩
      rintro (_ | _)
      · exact ⟨fun t set => Option.some.inj set ▸ destination, fun unset => by cases unset⟩
      · exact ⟨fun t set => Option.some.inj set ▸ source, fun unset => by cases unset⟩

theorem addRow_kept (kept : m.Kept) : (gqbGridJoinTable.AppendJoin m none).Kept := by
  refine appendedKept kept (plainAdded kept (gqbQueryJoin.endsNone.mpr (.inl rfl))) ?_
  rintro (_ | _)
  · exact ⟨fun t set => (by cases set), fun _ => rfl⟩
  · exact ⟨fun t set => (by cases set), fun _ => rfl⟩

theorem setKind_kept (kept : m.Kept) {row : ℕ} (kind : type_Join) (inside : row < m.joins.length) :
    ∃ m', gqbGridJoinTable.SetValue m row kind = some m' ∧ m'.Kept := by
  have there := List.getElem?_eq_getElem inside
  obtain ⟨join, here⟩ := Option.isSome_iff_exists.mp (kept.live _ (List.getElem_mem inside))
  have links : (fun i => (Function.update m.join m.joins[row] (some { join with kindofJoin := kind }) i).bind
      (·.ends)) = m.link := by
    rw [m.linkUpdate, Option.bind_some]
    refine Function.update_eq_self_iff.mpr ?_
    rw [link, here]
    rfl
  refine ⟨_, by rw [gqbGridJoinTable.SetValue, there, Option.bind_eq_bind, Option.bind_some, here]; rfl, ?_⟩
  have lives : ∀ j join', Function.update m.join m.joins[row] (some { join with kindofJoin := kind }) j =
      some join' → ∃ before, m.join j = some before ∧ ∀ isSource, join'.table? isSource = before.table? isSource ∧
        join'.column? isSource = before.column? isSource := by
    intro j join' now
    by_cases same : j = m.joins[row]
    · rw [same, Function.update_self] at now
      cases now
      exact ⟨join, same ▸ here, fun isSource => by cases isSource <;> exact ⟨rfl, rfl⟩⟩
    · rw [Function.update_of_ne same] at now
      exact ⟨join', now, fun _ => ⟨rfl, rfl⟩⟩
  refine ⟨⟨?_, ?_⟩, kept.once, kept.tables, kept.freshTable, fun j join' now => ?_, kept.rows,
    fun j member => ?_, fun j linked => ?_, fun j member join' now isSource => ?_⟩
  · exact (links.symm ▸ kept.indexed.own : Listed (fun i => (Function.update m.join m.joins[row]
      (some { join with kindofJoin := kind }) i).bind (·.ends)) Prod.fst m.own)
  · exact (links.symm ▸ kept.indexed.registered : Listed (fun i => (Function.update m.join m.joins[row]
      (some { join with kindofJoin := kind }) i).bind (·.ends)) Prod.snd m.registered)
  · obtain ⟨before, was, -⟩ := lives j join' now
    exact kept.freshJoin j before was
  · by_cases same : j = m.joins[row]
    · simp [same]
    · simpa [same] using kept.live j member
  · exact kept.linked j (congrFun links j ▸ linked)
  · obtain ⟨before, was, same⟩ := lives j join' now
    rw [(same isSource).1, (same isSource).2]
    exact kept.within j member before was isSource

theorem deleteJoin_kept (kept : m.Kept) {item : ℕ} (linked : (m.link item).isSome) :
    ∃ m', gqbView.deleteJoin m item = some m' ∧ m'.Kept := by
  obtain ⟨⟨s, d⟩, here⟩ := Option.isSome_iff_exists.mp linked
  obtain ⟨join, live, owner, -⟩ := linkEnds here
  refine ⟨_, ?_, unlinkedKept kept here⟩
  have indexed : Indexed { m with joins := m.joins.erase item } := ⟨kept.indexed.own, kept.indexed.registered⟩
  simp [gqbView.deleteJoin, gqbGridJoinTable.removeJoin, live, owner, removeJoin_eq indexed here]

theorem deleteRow_kept (kept : m.Kept) {pos : ℕ} (able : m.joins = [] ∨ pos < m.joins.length) :
    ∃ m', gqbGridJoinTable.DeleteRow m pos = some m' ∧ m'.Kept := by
  rw [gqbGridJoinTable.DeleteRow]
  split
  · exact ⟨m, rfl, kept⟩
  case isFalse rows =>
    have inside := able.resolve_left rows
    have there := List.getElem?_eq_getElem inside
    obtain ⟨join, live⟩ := Option.isSome_iff_exists.mp (kept.live _ (List.getElem_mem inside))
    rw [there, Option.bind_eq_bind, Option.bind_some, live, Option.bind_eq_bind, Option.bind_some]
    cases ends : join.ends with
    | none =>
      refine ⟨_, rfl, droppedKept kept ?_⟩
      rw [link, live]
      exact ends
    | some e =>
      have indexed : Indexed { m with joins := m.joins.erase m.joins[pos] } :=
        ⟨kept.indexed.own, kept.indexed.registered⟩
      exact ⟨_, removeJoin_eq indexed (linkSome live ends), unlinkedKept kept (linkSome live ends)⟩

theorem withEndWithin {join : gqbQueryJoin} {tables : List ℕ} (within : join.Within tables) {t : ℕ}
    (table : t ∈ tables) (isSource : Bool) (c : ℕ) : (join.withEnd isSource t c).Within tables := by
  cases isSource <;> rintro (_ | _)
  · exact ⟨fun t' set => Option.some.inj set ▸ table, fun unset => by cases unset⟩
  · exact within true
  · exact within false
  · exact ⟨fun t' set => Option.some.inj set ▸ table, fun unset => by cases unset⟩

theorem newJoin_eq (kept : m.Kept) {new : gqbQueryJoin} (within : new.Within m.queryCollection) :
    ∃ m₁, gqbJoinsPopUp.newJoin m new = some (m₁, m.next) ∧ m.Added new m₁ := by
  rw [gqbJoinsPopUp.newJoin]
  cases ends : new.ends with
  | none => exact ⟨_, rfl, plainAdded kept ends⟩
  | some e =>
    obtain ⟨owner, destination⟩ := gqbQueryJoin.endsSome.mp (show new.ends = some (e.1, e.2) from ends)
    have same : new = ⟨some e.1, some e.2, new.sCol, new.dCol, new.kindofJoin⟩ := by
      rw [← owner, ← destination]
    refine ⟨_, addJoin_eq kept ((within true).1 _ owner) ((within false).1 _ destination) _ _ _, ?_⟩
    rw [← same]
    exact linkAdded kept ends

theorem updateJoin_replaced (kept : m.Kept) {item : ℕ} (row : item ∈ m.joins) {join : gqbQueryJoin}
    (live : m.join item = some join) {isSource : Bool} {t c : ℕ} (table : t ∈ m.queryCollection)
    (differs : join.column? isSource ≠ some c) :
    ∃ m', gqbJoinsPopUp.updateJoin m item join isSource t c = some m' ∧
      m.Replaced item (join.withEnd isSource t c) m' := by
  obtain ⟨m₁, made, added⟩ := newJoin_eq kept (withEndWithin (kept.within item row join live) table isSource c)
  have old : item ≠ m.next := by
    rintro rfl
    cases (unused kept).symm.trans live
  have live₁ : m₁.join item = some join := (addedOthers added old).trans live
  have indexed : Indexed { m₁ with joins := m₁.joins.replace item m.next } :=
    ⟨added.indexed.own, added.indexed.registered⟩
  have others : ∀ j, j ≠ item → j ≠ m.next → Function.update m₁.join item none j = m.join j := by
    intro j other new
    rw [Function.update_of_ne other, addedOthers added new]
  have new : Function.update m₁.join item none m.next = some (join.withEnd isSource t c) := by
    rw [Function.update_of_ne (Ne.symm old), added.join, Function.update_self]
  have joins : m₁.joins.replace item m.next = m.joins.replace item m.next := by rw [added.joins]
  rw [gqbJoinsPopUp.updateJoin, if_pos differs, made, Option.bind_eq_bind, Option.bind_some]
  dsimp only [gqbGridJoinTable.ReplaceJoin]
  cases ends : join.ends with
  | none =>
    have links : (fun i => (Function.update m₁.join item none i).bind (·.ends)) = m₁.link := by
      rw [m₁.linkUpdate]
      refine Function.update_eq_self_iff.mpr ?_
      rw [link, live₁]
      exact ends.symm
    refine ⟨_, rfl, ⟨?_, ?_⟩, added.queryCollection, added.parent, joins, added.next, Function.update_self .., new,
      others⟩
    · exact (links.symm ▸ added.indexed.own : Listed (fun i => (Function.update m₁.join item none i).bind
        (·.ends)) Prod.fst m₁.own)
    · exact (links.symm ▸ added.indexed.registered : Listed (fun i => (Function.update m₁.join item none i).bind
        (·.ends)) Prod.snd m₁.registered)
  | some e =>
    have linked := linkSome (m := { m₁ with joins := m₁.joins.replace item m.next }) live₁ ends
    refine ⟨_, removeJoin_eq indexed linked, indexed.unlinked linked, added.queryCollection, added.parent, joins,
      added.next, Function.update_self .., new, others⟩

theorem replacedRow {rows : List ℕ} (once : rows.Nodup) {row item : ℕ} (there : rows[row]? = some item)
    (new : ℕ) : (rows.replace item new)[row]? = some new := by
  rw [replaceOnce once, List.getElem?_map, there, Option.map_some, if_pos rfl]

theorem offersTable {join : gqbQueryJoin} {isSource : Bool} {t c : ℕ}
    (offered : gqbJoinsPopUp.offers m join isSource t c) : t ∈ m.queryCollection := by
  rw [gqbJoinsPopUp.offers, Bool.and_eq_true, Bool.and_eq_true] at offered
  exact of_decide_eq_true offered.1.1

theorem choose_kept (kept : m.Kept) {row : ℕ} {isSource : Bool} {t c : ℕ}
    (able : Keeps emptied m (.choose row isSource t c)) :
    ∃ m', gqbJoinsPopUp.choose m row isSource t c = some m' ∧ m'.Kept ∧
      Chosen m (.choose row isSource t c) m' := by
  obtain ⟨inside, differs⟩ := able
  have there := List.getElem?_eq_getElem inside
  obtain ⟨join, live⟩ := Option.isSome_iff_exists.mp (kept.live _ (List.getElem_mem inside))
  rw [gqbJoinsPopUp.choose, there, Option.bind_eq_bind, Option.bind_some, live, Option.bind_eq_bind,
    Option.bind_some]
  split
  case isTrue offered =>
    by_cases same : join.column? isSource = some c
    · -- the column is the one the end has, and so is the table
      have table := differs _ join there live offered same
      refine ⟨m, if_neg (not_not_intro same), kept, fun item' join' there' live' offered' => ?_⟩
      cases there.symm.trans there'
      cases live.symm.trans live'
      refine ⟨_, there, live.trans (congrArg some ?_)⟩
      cases isSource
      · simp only [gqbQueryJoin.table?, gqbQueryJoin.column?, Bool.false_eq_true, if_false] at table same
        simp [gqbQueryJoin.withEnd, ← table, ← same]
      · simp only [gqbQueryJoin.table?, gqbQueryJoin.column?, if_true] at table same
        simp [gqbQueryJoin.withEnd, ← table, ← same]
    · obtain ⟨m', done, replaced⟩ := updateJoin_replaced kept (List.getElem_mem inside) live
        (offersTable offered) same
      have within := withEndWithin (kept.within _ (List.getElem_mem inside) join live) (offersTable offered)
        isSource c
      refine ⟨m', done, replacedKept kept (List.getElem_mem inside) within replaced,
        fun item' join' there' live' offered' => ?_⟩
      cases there.symm.trans there'
      cases live.symm.trans live'
      exact ⟨m.next, replaced.joins ▸ replacedRow kept.rows there m.next, replaced.new⟩
  case isFalse closed =>
    refine ⟨m, rfl, kept, fun item' join' there' live' offered' => ?_⟩
    cases there.symm.trans there'
    cases live.symm.trans live'
    exact absurd offered' closed

theorem removedRows (items : List ℕ) (m : Model) :
    items.foldl gqbGridJoinTable.removeJoin m = { m with joins := m.joins.diff items } := by
  induction items generalizing m with
  | nil => rfl
  | cons item items ih =>
    rw [List.foldl_cons, ih, List.diff_cons]
    rfl

def rowsElsewhere (m : Model) (t : ℕ) : List ℕ := (m.joins.diff (m.own t)).diff (m.registered t)

theorem rowsElsewhere_mem (kept : m.Kept) (t j : ℕ) :
    j ∈ rowsElsewhere m t ↔ j ∈ m.joins ∧ ∀ e, m.link j = some e → ¬ At t e := by
  rw [rowsElsewhere, (kept.rows.diff).mem_sdiff_iff, kept.rows.mem_sdiff_iff, (kept.indexed.own t).2,
    (kept.indexed.registered t).2, and_assoc]
  refine and_congr_right fun _ => ?_
  constructor
  · rintro ⟨left, arrived⟩ e here (into | out)
    · exact arrived ⟨e, here, into⟩
    · exact left ⟨e, here, out⟩
  · intro elsewhere
    exact ⟨fun ⟨e, here, out⟩ => elsewhere e here (.inr out), fun ⟨e, here, into⟩ => elsewhere e here (.inl into)⟩

theorem deleteTable_eq (kept : m.Kept) {t : ℕ} (table : t ∈ m.queryCollection) :
    gqbView.deleteTable emptied m t = gqbQueryObject.delete emptied
      { m with joins := rowsElsewhere m t, queryCollection := m.queryCollection.erase t } t := by
  obtain ⟨parent, made⟩ := Option.isSome_iff_exists.mp ((kept.tables t).mp table)
  rw [gqbView.deleteTable, gqbGridJoinTable.removeJoins, made]
  simp only [Option.bind_eq_bind, Option.bind_some, Option.pure_def, removedRows]
  rfl

theorem deleteTable_kept (kept : m.Kept) {t : ℕ} (able : Keeps emptied m (.deleteTable t)) :
    ∃ m', gqbView.deleteTable emptied m t = some m' ∧ m'.Kept := by
  obtain ⟨table, incomplete, reads⟩ := able
  have indexed : Indexed { m with joins := rowsElsewhere m t, queryCollection := m.queryCollection.erase t } :=
    ⟨kept.indexed.own, kept.indexed.registered⟩
  obtain ⟨m₁, done, without⟩ := (delete_eq indexed ((kept.tables t).mp table)).1 reads
  rw [deleteTable_eq kept table]
  have left : ∀ u, u ∈ m.queryCollection.erase t ↔ u ≠ t ∧ u ∈ m.queryCollection :=
    fun u => kept.once.mem_erase_iff
  -- a join is deleted, or as it was and not at the table
  have each : ∀ j, m₁.join j = none ∨ (m₁.join j = m.join j ∧ ∀ e, m.link j = some e → ¬ At t e) := by
    intro j
    by_cases at_table : ∃ e, m.link j = some e ∧ At t e
    · obtain ⟨e, here, asked⟩ := at_table
      exact .inl (without.removed j e here asked)
    · have elsewhere : ∀ e, m.link j = some e → ¬ At t e := fun e here asked => at_table ⟨e, here, asked⟩
      exact .inr ⟨without.others j elsewhere, elsewhere⟩
  refine ⟨_, done, narrowedKept kept ⟨without.indexed.own, without.indexed.registered⟩ ?_ (fun u => ?_)
    (fun u member => ?_) without.next ?_ (fun j member => ?_) (fun j join live => ?_) (fun j linked => ?_)
    fun j member join live isSource => ?_⟩
  · exact without.queryCollection ▸ kept.once.erase t
  · dsimp only
    rw [without.queryCollection, left]
    by_cases own : u = t
    · simp [own]
    · simp [own, kept.tables u]
  · rw [without.queryCollection] at member
    exact ((left u).mp member).2
  · exact without.joins ▸ kept.rows.diff.diff
  · rw [without.joins] at member
    obtain ⟨row, elsewhere⟩ := (rowsElsewhere_mem kept t j).mp member
    exact ⟨row, without.others j elsewhere⟩
  · rcases each j with gone | ⟨same, -⟩
    · cases gone.symm.trans live
    · exact same ▸ live
  · rcases each j with gone | ⟨same, elsewhere⟩
    · rw [link, gone] at linked
      cases linked
    · dsimp only
      rw [without.joins]
      refine (rowsElsewhere_mem kept t j).mpr ⟨kept.linked j ?_, elsewhere⟩
      rw [link] at linked ⊢
      exact same ▸ linked
  · rw [without.joins] at member
    obtain ⟨row, elsewhere⟩ := (rowsElsewhere_mem kept t j).mp member
    have within := kept.within j row join live isSource
    refine ⟨fun u set => ?_, within.2⟩
    rw [without.queryCollection]
    refine (left u).mpr ⟨?_, within.1 u set⟩
    rintro rfl
    cases ends : join.ends with
    | none =>
      obtain ⟨owner, destination⟩ := incomplete j row join live ends
      cases isSource
      · exact destination set
      · exact owner set
    | some e =>
      obtain ⟨owner, destination⟩ := gqbQueryJoin.endsSome.mp (show join.ends = some (e.1, e.2) from ends)
      refine elsewhere e (linkSome live ends) ?_
      cases isSource
      · exact .inl (Option.some.inj (destination.symm.trans set))
      · exact .inr (Option.some.inj (owner.symm.trans set))

theorem deleteTable_needs (kept : m.Kept) {t : ℕ} (done : gqbView.deleteTable emptied m t = some m')
    (lists : JoinLists m') : Keeps emptied m (.deleteTable t) := by
  by_cases table : t ∈ m.queryCollection
  · have indexed : Indexed { m with joins := rowsElsewhere m t, queryCollection := m.queryCollection.erase t } :=
      ⟨kept.indexed.own, kept.indexed.registered⟩
    obtain ⟨ends, loops⟩ := @delete_eq _ emptied indexed _ ((kept.tables t).mp table)
    rw [deleteTable_eq kept table] at done
    have reads : emptied = true ∨ ∀ j e, m.link j = some e → ¬ At t e := by
      cases emptied with
      | true => exact .inl rfl
      | false =>
        refine .inr fun j e here asked => ?_
        rw [loops rfl ⟨j, e, here, asked⟩] at done
        cases done
    obtain ⟨m₁, done₁, without⟩ := ends reads
    cases done.symm.trans done₁
    refine ⟨table, fun j row join live unlinked => ?_, reads⟩
    -- a join with one end only keeps its row
    have elsewhere : ∀ e, m.link j = some e → ¬ At t e := by
      intro e here
      rw [link, live] at here
      cases unlinked.symm.trans here
    have row' : j ∈ m₁.joins := without.joins ▸ (rowsElsewhere_mem kept t j).mpr ⟨row, elsewhere⟩
    have live' : m₁.join j = some join := (without.others j elsewhere).trans live
    have gone : t ∉ m₁.queryCollection := without.queryCollection ▸ kept.once.not_mem_erase
    exact ⟨fun owner => gone (lists.tables j join live' (.inl row') t (.inl owner)),
      fun destination => gone (lists.tables j join live' (.inl row') t (.inr destination))⟩
  · have missing : m.parent t = none := by
      cases made : m.parent t with
      | none => rfl
      | some parent => exact absurd ((kept.tables t).mpr (Option.isSome_of_mem made)) table
    rw [gqbView.deleteTable, gqbGridJoinTable.removeJoins, missing] at done
    cases done

theorem drawJoin_needs (kept : m.Kept) {s d : ℕ} {sCol dCol : Option ℕ}
    (done : gqbView.drawJoin m s sCol d dCol = some m') : Keeps emptied m (.drawJoin s sCol d dCol) := by
  by_cases self : d = s
  · exact .inl self
  · cases dCol with
    | none => exact .inr (.inl rfl)
    | some dCol =>
      unfold gqbView.drawJoin gqbQueryObject.addJoin at done
      rw [if_neg self] at done
      refine .inr (.inr ⟨(kept.tables s).mpr ?_, (kept.tables d).mpr ?_⟩)
      · cases made : m.parent s with
        | none =>
          rw [made] at done
          cases done
        | some parent => rfl
      · cases made : m.parent d with
        | none =>
          rw [made] at done
          cases parent : m.parent s with
          | none =>
            rw [parent] at done
            cases done
          | some parent' =>
            rw [parent] at done
            cases done
        | some parent => rfl

theorem choose_needs (kept : m.Kept) {row : ℕ} {isSource : Bool} {t c : ℕ}
    (done : gqbJoinsPopUp.choose m row isSource t c = some m')
    (chosen : Chosen m (.choose row isSource t c) m') : Keeps emptied m (.choose row isSource t c) := by
  have inside : row < m.joins.length := by
    by_contra outside
    rw [gqbJoinsPopUp.choose, List.getElem?_eq_none (Nat.le_of_not_lt outside)] at done
    cases done
  refine ⟨inside, fun item join there live offered same => ?_⟩
  have unchanged : m' = m := by
    rw [gqbJoinsPopUp.choose, there, Option.bind_eq_bind, Option.bind_some, live, Option.bind_eq_bind,
      Option.bind_some, if_pos offered, gqbJoinsPopUp.updateJoin, if_neg (not_not_intro same)] at done
    exact (Option.some.inj done).symm
  subst unchanged
  obtain ⟨item', there', live'⟩ := chosen item join there live offered
  cases there.symm.trans there'
  have ended := Option.some.inj (live.symm.trans live')
  rw [ended]
  cases isSource <;> rfl

theorem deleteJoin_needs {item : ℕ} (done : gqbView.deleteJoin m item = some m') :
    Keeps emptied m (.deleteJoin item) := by
  simp only [gqbView.deleteJoin, gqbGridJoinTable.removeJoin, gqbQueryObject.removeJoin, Option.bind_eq_bind,
    Option.bind_eq_some_iff, if_true] at done
  obtain ⟨join, live, s, owner, join', live', d, destination, -⟩ := done
  cases live.symm.trans live'
  exact Option.isSome_of_mem (linkSome live (gqbQueryJoin.endsSome.mpr ⟨owner, destination⟩))

theorem stepKept (kept : m.Kept) (op : Op) (keeps : Keeps emptied m op) :
    ∃ m', step emptied m op = some m' ∧ m'.Kept ∧ Chosen m op m' := by
  cases op with
  | addTable table => exact ⟨_, rfl, addTableKept kept table, trivial⟩
  | drawJoin s sCol d dCol =>
    obtain ⟨m', done, kept'⟩ := drawJoin_kept kept s sCol d dCol keeps
    exact ⟨m', done, kept', trivial⟩
  | addRow => exact ⟨_, rfl, addRow_kept kept, trivial⟩
  | choose row isSource t c => exact choose_kept kept keeps
  | setKind row kind =>
    obtain ⟨m', done, kept'⟩ := setKind_kept kept kind keeps
    exact ⟨m', done, kept', trivial⟩
  | deleteJoin item =>
    obtain ⟨m', done, kept'⟩ := deleteJoin_kept kept keeps
    exact ⟨m', done, kept', trivial⟩
  | deleteRow pos =>
    obtain ⟨m', done, kept'⟩ := deleteRow_kept kept keeps
    exact ⟨m', done, kept', trivial⟩
  | deleteTable t =>
    obtain ⟨m', done, kept'⟩ := deleteTable_kept kept keeps
    exact ⟨m', done, kept', trivial⟩

theorem stepKeeps (kept : m.Kept) (op : Op) (done : step emptied m op = some m') (lists : JoinLists m')
    (chosen : Chosen m op m') : Keeps emptied m op := by
  cases op with
  | addTable table => trivial
  | drawJoin s sCol d dCol => exact drawJoin_needs kept done
  | addRow => trivial
  | choose row isSource t c => exact choose_needs kept done chosen
  | setKind row kind =>
    by_contra outside
    rw [step, gqbGridJoinTable.SetValue, List.getElem?_eq_none (Nat.le_of_not_lt outside)] at done
    cases done
  | deleteJoin item => exact deleteJoin_needs done
  | deleteRow pos =>
    by_cases none : m.joins = []
    · exact .inl none
    · refine .inr ?_
      by_contra outside
      rw [step, gqbGridJoinTable.DeleteRow, if_neg none,
        List.getElem?_eq_none (Nat.le_of_not_lt outside)] at done
      cases done
  | deleteTable t => exact deleteTable_needs kept done lists

end Steps

section Runs
variable {emptied : Bool}

/- Each step meets its condition in the state that the steps before it lead to. -/
def EachKeeps (emptied : Bool) (ops : List Op) : Prop :=
  ∀ before op after, ops = before ++ op :: after → ∃ m, run emptied before = some m ∧ Keeps emptied m op

/- What is asked of a run: the lists are right in all its states, and each choice does what it should. -/
def JoinsRight (emptied : Bool) (ops : List Op) : Prop :=
  (∀ before after, ops = before ++ after → ∃ m, run emptied before = some m ∧ JoinLists m) ∧
    ∀ before op after m m', ops = before ++ op :: after → run emptied before = some m →
      step emptied m op = some m' → Chosen m op m'

theorem runSnoc (ops : List Op) (op : Op) :
    run emptied (ops ++ [op]) = (run emptied ops).bind (step emptied · op) := by
  rw [run, List.foldlM_append]
  simp [run]

/-- A run keeps the joins right, and every choice does what it should, exactly if each of its steps meets its
condition. -/
theorem joinsKept (emptied : Bool) (ops : List Op) : JoinsRight emptied ops ↔ EachKeeps emptied ops := by
  constructor
  · rintro ⟨lists, chosen⟩
    have kept : ∀ before after, ops = before ++ after → ∃ m, run emptied before = some m ∧ m.Kept := by
      intro before
      induction before using List.reverseRecOn with
      | nil => exact fun after split => ⟨Init, rfl, initKept⟩
      | append_singleton before op ih =>
        intro after split
        obtain ⟨m', after', lists'⟩ := lists (before ++ [op]) after split
        rw [List.append_assoc] at split
        obtain ⟨m, before', now⟩ := ih (op :: after) split
        rw [runSnoc, before'] at after'
        have keeps := stepKeeps now op after' lists' (chosen before op after m m' split before' after')
        obtain ⟨m'', done, next, -⟩ := stepKept now op keeps
        exact ⟨m'', by rw [runSnoc, before']; exact done, next⟩
    intro before op after split
    obtain ⟨m, before', now⟩ := kept before (op :: after) split
    obtain ⟨m', after', lists'⟩ := lists (before ++ [op]) after (by rw [split, List.append_assoc]; rfl)
    rw [runSnoc, before'] at after'
    exact ⟨m, before', stepKeeps now op after' lists' (chosen before op after m m' split before' after')⟩
  · intro keeps
    have kept : ∀ before after, ops = before ++ after → ∃ m, run emptied before = some m ∧ m.Kept := by
      intro before
      induction before using List.reverseRecOn with
      | nil => exact fun after split => ⟨Init, rfl, initKept⟩
      | append_singleton before op ih =>
        intro after split
        rw [List.append_assoc] at split
        obtain ⟨m, before', now⟩ := ih (op :: after) split
        obtain ⟨m₁, before₁, meets⟩ := keeps before op after split
        cases before'.symm.trans before₁
        obtain ⟨m', done, next, -⟩ := stepKept now op meets
        exact ⟨m', by rw [runSnoc, before']; exact done, next⟩
    refine ⟨fun before after split => ?_, fun before op after m m' split before' done => ?_⟩
    · obtain ⟨m, before', now⟩ := kept before after split
      exact ⟨m, before', keptLists now⟩
    · obtain ⟨m₁, before₁, now⟩ := kept before (op :: after) split
      cases before'.symm.trans before₁
      obtain ⟨m₂, before₂, meets⟩ := keeps before op after split
      cases before'.symm.trans before₂
      obtain ⟨m₃, done', -, chosen⟩ := stepKept now op meets
      cases done.symm.trans done'
      exact chosen

def oneColumn (column : ℕ) : gqb.gqbTable := ⟨[column], List.nodup_singleton column⟩

/- Two instances of a table and another table; a join from the first instance gets the second one's column of
the same name as its source. -/
def otherInstance : List Op :=
  [.addTable (oneColumn 0), .addTable (oneColumn 0), .addTable (oneColumn 5),
    .drawJoin 0 (some 0) 2 (some 5), .choose 0 true 1 0]

theorem endUnchanged : ¬ ∀ emptied ops, JoinsRight emptied ops := by
  intro all
  obtain ⟨-, chosen⟩ := all true otherInstance
  have chosen := chosen (otherInstance.take 4) (.choose 0 true 1 0) [] _ _ rfl rfl rfl
  obtain ⟨item, row, now⟩ := chosen 3 _ rfl rfl rfl
  cases row
  cases now

end Runs
end PgAdmin.gqbJoins
