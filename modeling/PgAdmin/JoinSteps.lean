import PgAdmin.JoinLists

/-! What each change of the joins keeps. -/
namespace PgAdmin.gqbJoins.Model
open LinkLists
variable {m m' m₁ : Model} {j s d : ℕ} {join new : gqbQueryJoin}

theorem initKept : Init.Kept where
  indexed := ⟨fun _ => ⟨List.nodup_nil, by simp [own, Init, link]⟩,
    fun _ => ⟨List.nodup_nil, by simp [registered, Init, link]⟩⟩
  once := List.nodup_nil
  tables _ := by simp [Init]
  freshTable _ member := absurd member List.not_mem_nil
  freshJoin _ _ here := by cases here
  rows := List.nodup_nil
  live _ member := absurd member List.not_mem_nil
  linked _ here := by cases here
  within _ member := absurd member List.not_mem_nil

theorem addTableKept (kept : m.Kept) (table : gqb.gqbTable) : (gqbModel.addTable m table).Kept where
  indexed := ⟨kept.indexed.own, kept.indexed.registered⟩
  once := by
    refine List.nodup_append'.mpr ⟨kept.once, List.nodup_singleton _, fun t old new => ?_⟩
    exact Nat.lt_irrefl _ (List.mem_singleton.mp new ▸ kept.freshTable t old)
  tables t := by
    rw [gqbModel.addTable, List.mem_append, List.mem_singleton]
    by_cases same : t = m.next
    · simp [same]
    · simp [same, kept.tables t]
  freshTable t member := by
    rcases List.mem_append.mp member with old | new
    · exact Nat.lt_succ_of_lt (kept.freshTable t old)
    · exact Nat.lt_succ_of_le (Nat.le_of_eq (List.mem_singleton.mp new))
  freshJoin j join here := Nat.lt_succ_of_lt (kept.freshJoin j join here)
  rows := kept.rows
  live := kept.live
  linked := kept.linked
  within j member join here isSource :=
    ⟨fun t set => List.mem_append_left _ ((kept.within j member join here isSource).1 t set),
      (kept.within j member join here isSource).2⟩

structure Added (m : Model) (new : gqbQueryJoin) (m₁ : Model) : Prop where
  indexed : m₁.Indexed
  queryCollection : m₁.queryCollection = m.queryCollection
  parent : m₁.parent = m.parent
  join : m₁.join = Function.update m.join m.next (some new)
  joins : m₁.joins = m.joins
  next : m₁.next = m.next + 1

theorem unused (kept : m.Kept) : m.join m.next = none :=
  Option.eq_none_iff_forall_ne_some.mpr fun join here => Nat.lt_irrefl _ (kept.freshJoin _ join here)

theorem unusedLink (kept : m.Kept) : m.link m.next = none := by
  rw [link, unused kept]
  rfl

def linkMade (m : Model) (new : gqbQueryJoin) (s d : ℕ) : Model :=
  { m with
    join := Function.update m.join m.next (some new)
    joinsCollection := Function.update m.joinsCollection s (some (m.own s ++ [m.next]))
    registeredCollection := Function.update m.registeredCollection d (some (m.registered d ++ [m.next]))
    next := m.next + 1 }

theorem linkAdded (kept : m.Kept) (ends : new.ends = some (s, d)) : m.Added new (m.linkMade new s d) := by
  have links : (m.linkMade new s d).link = Function.update m.link m.next (some (s, d)) := by
    have update := m.linkUpdate m.next (some new)
    rwa [Option.bind_some, ends] at update
  have owns : (m.linkMade new s d).own = Function.update m.own s (m.own s ++ [m.next]) :=
    listedUpdate m.joinsCollection s (some (m.own s ++ [m.next]))
  have registers : (m.linkMade new s d).registered =
      Function.update m.registered d (m.registered d ++ [m.next]) :=
    listedUpdate m.registeredCollection d (some (m.registered d ++ [m.next]))
  refine ⟨⟨?_, ?_⟩, rfl, rfl, rfl, rfl, rfl⟩
  · rw [links, owns]
    exact kept.indexed.own.linked (unusedLink kept) (s, d)
  · rw [links, registers]
    exact kept.indexed.registered.linked (unusedLink kept) (s, d)

theorem addJoin_eq (kept : m.Kept) (source : s ∈ m.queryCollection) (destination : d ∈ m.queryCollection)
    (sCol dCol : Option ℕ) (kind : type_Join) : gqbQueryObject.addJoin m s d sCol dCol kind =
      some (m.linkMade ⟨some s, some d, sCol, dCol, kind⟩ s d, m.next) := by
  obtain ⟨sTable, sMade⟩ := Option.isSome_iff_exists.mp ((kept.tables s).mp source)
  obtain ⟨dTable, dMade⟩ := Option.isSome_iff_exists.mp ((kept.tables d).mp destination)
  rw [gqbQueryObject.addJoin, sMade, dMade]
  rfl

theorem plainAdded (kept : m.Kept) (ends : new.ends = none) :
    m.Added new { m with join := Function.update m.join m.next (some new), next := m.next + 1 } := by
  have links : (fun i => (Function.update m.join m.next (some new) i).bind (·.ends)) = m.link := by
    rw [m.linkUpdate, Option.bind_some, ends]
    exact Function.update_eq_self_iff.mpr (unusedLink kept).symm
  refine ⟨⟨?_, ?_⟩, rfl, rfl, rfl, rfl, rfl⟩
  · exact (links.symm ▸ kept.indexed.own : Listed (fun i =>
      (Function.update m.join m.next (some new) i).bind (·.ends)) Prod.fst m.own)
  · exact (links.symm ▸ kept.indexed.registered : Listed (fun i =>
      (Function.update m.join m.next (some new) i).bind (·.ends)) Prod.snd m.registered)

theorem addedOthers (added : m.Added new m₁) (other : j ≠ m.next) : m₁.join j = m.join j := by
  rw [added.join, Function.update_of_ne other]

theorem appendedKept (kept : m.Kept) (added : m.Added new m₁) (within : new.Within m.queryCollection) :
    Kept { m₁ with joins := m.joins ++ [m.next] } where
  indexed := ⟨added.indexed.own, added.indexed.registered⟩
  once := by
    dsimp only
    rw [added.queryCollection]
    exact kept.once
  tables t := by
    dsimp only
    rw [added.queryCollection, added.parent]
    exact kept.tables t
  freshTable t member := by
    dsimp only at member ⊢
    rw [added.queryCollection] at member
    rw [added.next]
    exact Nat.lt_succ_of_lt (kept.freshTable t member)
  freshJoin j join here := by
    dsimp only at here ⊢
    rw [added.next]
    by_cases same : j = m.next
    · exact Nat.lt_succ_of_le (Nat.le_of_eq same)
    · rw [addedOthers added same] at here
      exact Nat.lt_succ_of_lt (kept.freshJoin j join here)
  rows := by
    refine List.nodup_append'.mpr ⟨kept.rows, List.nodup_singleton _, fun j old new => ?_⟩
    have live := kept.live j old
    rw [List.mem_singleton.mp new, unused kept] at live
    cases live
  live j member := by
    dsimp only
    by_cases same : j = m.next
    · rw [added.join, same, Function.update_self]
      rfl
    · rw [addedOthers added same]
      refine kept.live j ((List.mem_append.mp member).resolve_right fun new => same ?_)
      exact List.mem_singleton.mp new
  linked j linked := by
    by_cases same : j = m.next
    · exact List.mem_append_right _ (List.mem_singleton.mpr same)
    · refine List.mem_append_left _ (kept.linked j ?_)
      rw [link] at linked ⊢
      dsimp only at linked
      rwa [addedOthers added same] at linked
  within j member join here := by
    dsimp only at here ⊢
    rw [added.queryCollection]
    by_cases same : j = m.next
    · rw [added.join, same, Function.update_self] at here
      cases here
      exact within
    · rw [addedOthers added same] at here
      refine kept.within j ((List.mem_append.mp member).resolve_right fun new => same ?_) join here
      exact List.mem_singleton.mp new

theorem narrowedKept (kept : m.Kept) (indexed : m'.Indexed) (once : m'.queryCollection.Nodup)
    (tables : ∀ t, t ∈ m'.queryCollection ↔ (m'.parent t).isSome)
    (old : ∀ t ∈ m'.queryCollection, t ∈ m.queryCollection) (next : m'.next = m.next)
    (rows : m'.joins.Nodup) (joins : ∀ j ∈ m'.joins, j ∈ m.joins ∧ m'.join j = m.join j)
    (live : ∀ j join, m'.join j = some join → m.join j = some join)
    (linked : ∀ j, (m'.link j).isSome → j ∈ m'.joins)
    (within : ∀ j ∈ m'.joins, ∀ join, m.join j = some join → join.Within m'.queryCollection) : m'.Kept where
  indexed := indexed
  once := once
  tables := tables
  freshTable t member := next ▸ kept.freshTable t (old t member)
  freshJoin j join here := next ▸ kept.freshJoin j join (live j join here)
  rows := rows
  live j member := by
    rw [(joins j member).2]
    exact kept.live j (joins j member).1
  linked := linked
  within j member join here := within j member join (live j join here)

theorem unlinkedKept (kept : m.Kept) (here : m.link j = some (s, d)) :
    Kept (unlinked { m with joins := m.joins.erase j } j s d) := by
  have apart : ∀ i ∈ m.joins.erase j, i ≠ j ∧ i ∈ m.joins := fun i => kept.rows.mem_erase_iff.mp
  have others : ∀ i, i ≠ j → Function.update m.join j none i = m.join i :=
    fun i other => Function.update_of_ne other _ _
  have indexed := kept.indexed.unlinked here
  refine narrowedKept kept ⟨indexed.own, indexed.registered⟩ kept.once kept.tables (fun _ => id) rfl
    (kept.rows.erase j) (fun i member => ?_) (fun i join live => ?_) (fun i linked => ?_) fun i member join =>
      kept.within i (apart i member).2 join
  · exact ⟨(apart i member).2, others i (apart i member).1⟩
  · by_cases same : i = j
    · subst same
      rw [unlinkedJoin, Function.update_self] at live
      cases live
    · rwa [unlinkedJoin, others i same] at live
  · by_cases same : i = j
    · subst same
      rw [unlinkedLink, Function.update_self] at linked
      cases linked
    · rw [unlinkedLink, Function.update_of_ne same] at linked
      exact kept.rows.mem_erase_iff.mpr ⟨same, kept.linked i linked⟩

theorem droppedKept (kept : m.Kept) (unlinked : m.link j = none) :
    Kept { m with joins := m.joins.erase j } := by
  have apart : ∀ i ∈ m.joins.erase j, i ≠ j ∧ i ∈ m.joins := fun i => kept.rows.mem_erase_iff.mp
  refine narrowedKept kept ⟨kept.indexed.own, kept.indexed.registered⟩ kept.once kept.tables (fun _ => id) rfl
    (kept.rows.erase j) (fun i member => ⟨(apart i member).2, rfl⟩) (fun _ _ => id) (fun i linked => ?_)
    fun i member join => kept.within i (apart i member).2 join
  refine kept.rows.mem_erase_iff.mpr ⟨?_, kept.linked i linked⟩
  rintro rfl
  have linked : (m.link i).isSome := linked
  rw [unlinked] at linked
  cases linked

theorem replaceOnce {xs : List ℕ} (once : xs.Nodup) (a b : ℕ) :
    xs.replace a b = xs.map fun x => if x = a then b else x := by
  induction xs with
  | nil => rfl
  | cons x xs ih =>
    obtain ⟨new, once⟩ := List.nodup_cons.mp once
    by_cases same : x = a
    · subst same
      have others : xs.map (fun y => if y = x then b else y) = xs.map id := by
        refine List.map_congr_left fun y member => if_neg ?_
        rintro rfl
        exact new member
      rw [List.replace_cons_self, List.map_cons, if_pos rfl, others, List.map_id]
    · rw [List.replace_cons, beq_eq_false_iff_ne.mpr (Ne.symm same), List.map_cons, if_neg same, ih once]

structure Replaced (m : Model) (item : ℕ) (new : gqbQueryJoin) (m' : Model) : Prop where
  indexed : m'.Indexed
  queryCollection : m'.queryCollection = m.queryCollection
  parent : m'.parent = m.parent
  joins : m'.joins = m.joins.replace item m.next
  next : m'.next = m.next + 1
  old : m'.join item = none
  new : m'.join m.next = some new
  others : ∀ j, j ≠ item → j ≠ m.next → m'.join j = m.join j

theorem replacedKept (kept : m.Kept) {item : ℕ} (row : item ∈ m.joins)
    (within : new.Within m.queryCollection) (replaced : m.Replaced item new m') : m'.Kept := by
  have rows : m'.joins = m.joins.map fun j => if j = item then m.next else j :=
    replaced.joins.trans (replaceOnce kept.rows item m.next)
  have unlisted : ∀ j ∈ m.joins, j ≠ m.next := fun j member same => by
    have live := kept.live j member
    rw [same, unused kept] at live
    cases live
  have members : ∀ j, j ∈ m'.joins ↔ j = m.next ∨ (j ∈ m.joins ∧ j ≠ item) := by
    intro j
    rw [rows, List.mem_map]
    constructor
    · rintro ⟨i, member, rfl⟩
      by_cases same : i = item
      · exact .inl (if_pos same)
      · rw [if_neg same]
        exact .inr ⟨member, same⟩
    · rintro (rfl | ⟨member, other⟩)
      · exact ⟨item, row, if_pos rfl⟩
      · exact ⟨j, member, if_neg other⟩
  refine ⟨replaced.indexed, ?_, fun t => ?_, fun t member => ?_, fun j join here => ?_, ?_, fun j member => ?_,
    fun j linked => ?_, fun j member join here => ?_⟩
  · exact replaced.queryCollection ▸ kept.once
  · rw [replaced.queryCollection, replaced.parent]
    exact kept.tables t
  · rw [replaced.queryCollection] at member
    rw [replaced.next]
    exact Nat.lt_succ_of_lt (kept.freshTable t member)
  · rw [replaced.next]
    by_cases added : j = m.next
    · exact Nat.lt_succ_of_le (Nat.le_of_eq added)
    · by_cases same : j = item
      · rw [same, replaced.old] at here
        cases here
      · rw [replaced.others j same added] at here
        exact Nat.lt_succ_of_lt (kept.freshJoin j join here)
  · rw [rows]
    refine List.Nodup.map_on (fun i member i' member' same => ?_) kept.rows
    have first := unlisted i member
    have second := unlisted i' member'
    split at same <;> split at same <;> simp_all
  · rcases (members j).mp member with rfl | ⟨old, other⟩
    · rw [replaced.new]
      rfl
    · rw [replaced.others j other (unlisted j old)]
      exact kept.live j old
  · refine (members j).mpr ?_
    by_cases added : j = m.next
    · exact .inl added
    · by_cases same : j = item
      · rw [link, same, replaced.old] at linked
        cases linked
      · rw [link, replaced.others j same added] at linked
        exact .inr ⟨kept.linked j linked, same⟩
  · rw [replaced.queryCollection]
    rcases (members j).mp member with rfl | ⟨old, other⟩
    · cases replaced.new.symm.trans here
      exact within
    · rw [replaced.others j other (unlisted j old)] at here
      exact kept.within j old join here

end PgAdmin.gqbJoins.Model
