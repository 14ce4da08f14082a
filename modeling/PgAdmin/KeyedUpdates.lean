import Mathlib.Logic.Function.Basic
import PgAdmin.KeyedTable

/-! What a table says of a key, and statements that change it for one key each. -/
namespace PgAdmin.KeyedTable

variable {K V : Type*} [DecidableEq K]

def find (key : K) (table : List (K × V)) : Option V := (table.find? fun row => row.1 = key).map Prod.snd

@[simp] theorem findCons (key : K) (row : K × V) (table : List (K × V)) :
    find key (row :: table) = if row.1 = key then some row.2 else find key table := by
  by_cases here : row.1 = key <;> simp [find, here]

theorem findNone {key : K} {table : List (K × V)} : find key table = none ↔ key ∉ table.map Prod.fst := by
  rw [find, Option.map_eq_none_iff, List.find?_eq_none]
  constructor
  · rintro none member
    obtain ⟨row, inside, rfl⟩ := List.mem_map.mp member
    exact none row inside (decide_eq_true rfl)
  · intro absent row inside same
    exact absent (of_decide_eq_true same ▸ List.mem_map_of_mem inside)

theorem findIff {table : List (K × V)} (distinct : (table.map Prod.fst).Nodup) {key : K} {value : V} :
    find key table = some value ↔ (key, value) ∈ table := by
  induction table with
  | nil => simp [find]
  | cons row table ih =>
    rw [List.map_cons, List.nodup_cons] at distinct
    obtain ⟨first, second⟩ := row
    rw [findCons, List.mem_cons, Prod.mk.injEq]
    by_cases here : first = key
    · subst here
      have absent : (first, value) ∉ table := fun member =>
        distinct.1 (List.mem_map.mpr ⟨_, member, rfl⟩)
      simp [absent, eq_comm]
    · simp [here, Ne.symm here, ih distinct.2]

theorem findDrop {key other : K} (apart : other ≠ key) (table : List (K × V)) :
    find other (drop key table) = find other table := by
  induction table with
  | nil => rfl
  | cons row table ih =>
    rw [findCons]
    by_cases here : row.1 = key
    · have skipped : drop key (row :: table) = drop key table := List.filter_cons_of_neg (by simpa using here)
      rw [skipped, ih, if_neg (here ▸ apart.symm)]
    · have kept : drop key (row :: table) = row :: drop key table := List.filter_cons_of_pos (by simpa using here)
      rw [kept, findCons, ih]

theorem eraseFirst {key : K} {table : List (K × V)} (distinct : (table.map Prod.fst).Nodup) :
    table.eraseP (fun row => row.1 = key) = drop key table := by
  induction table with
  | nil => rfl
  | cons row table ih =>
    rw [List.map_cons, List.nodup_cons] at distinct
    by_cases here : row.1 = key
    · subst here
      have skipped : drop row.1 (row :: table) = drop row.1 table := List.filter_cons_of_neg (by simp)
      rw [skipped, dropAbsent distinct.1]
      exact List.eraseP_cons_of_pos (decide_eq_true rfl)
    · have kept : drop key (row :: table) = row :: drop key table := List.filter_cons_of_pos (by simpa using here)
      rw [kept, List.eraseP_cons_of_neg (by simpa using here), ih distinct.2]

def unlisted {W : Type*} (old : List (K × V)) (new : List (K × W)) : List (K × V) :=
  old.filter fun row => (find row.1 new).isNone

theorem memUnlisted {W : Type*} {old : List (K × V)} {new : List (K × W)} {row : K × V} :
    row ∈ unlisted old new ↔ row ∈ old ∧ row.1 ∉ new.map Prod.fst := by
  rw [unlisted, List.mem_filter, Option.isNone_iff_eq_none, findNone]

theorem unlistedNil {W : Type*} (old : List (K × V)) : unlisted old ([] : List (K × W)) = old :=
  List.filter_eq_self.mpr fun _ _ => rfl

theorem unlistedDrop {W : Type*} (old : List (K × V)) (row : K × W) (new : List (K × W)) :
    unlisted (drop row.1 old) new = unlisted old (row :: new) := by
  rw [unlisted, drop, List.filter_filter]
  refine List.filter_congr fun other _ => ?_
  by_cases same : row.1 = other.1
  · simp [same]
  · simp [same, Ne.symm same]

def updated (changes : List (K × Option V)) (values : K → Option V) : K → Option V :=
  changes.foldl (fun values change => Function.update values change.1 change.2) values

theorem updatedOff {changes : List (K × Option V)} {key : K} (absent : key ∉ changes.map Prod.fst)
    (values : K → Option V) : updated changes values key = values key := by
  induction changes generalizing values with
  | nil => rfl
  | cons change changes ih =>
    rw [List.map_cons, List.mem_cons, not_or] at absent
    exact (ih absent.2 _).trans (Function.update_of_ne absent.1 _ _)

theorem updatedOn {changes : List (K × Option V)} (distinct : (changes.map Prod.fst).Nodup) {change : K × Option V}
    (member : change ∈ changes) (values : K → Option V) : updated changes values change.1 = change.2 := by
  induction changes generalizing values with
  | nil => cases member
  | cons first changes ih =>
    rw [List.map_cons, List.nodup_cons] at distinct
    rcases List.mem_cons.mp member with rfl | behind
    · exact (updatedOff distinct.1 _).trans (Function.update_self _ _ _)
    · exact ih distinct.2 behind _

theorem updatedTo {changes : List (K × Option V)} (distinct : (changes.map Prod.fst).Nodup) {old new : K → Option V}
    (right : ∀ change ∈ changes, change.2 = new change.1)
    (same : ∀ key, key ∉ changes.map Prod.fst → old key = new key) : updated changes old = new := by
  funext key
  by_cases changed : key ∈ changes.map Prod.fst
  · obtain ⟨change, member, rfl⟩ := List.mem_map.mp changed
    rw [updatedOn distinct member, right change member]
  · rw [updatedOff changed, same key changed]

theorem runUpdates {A S : Type*} {execute : A → S → Option S} {put : (K → Option V) → S} {old : K → Option V}
    {changes : List (A × K × Option V)} (distinct : (changes.map fun change => change.2.1).Nodup)
    (each : ∀ change ∈ changes, ∀ values : K → Option V, values change.2.1 = old change.2.1 →
      execute change.1 (put values) = some (put (Function.update values change.2.1 change.2.2)))
    {values : K → Option V} (start : ∀ change ∈ changes, values change.2.1 = old change.2.1) :
    (changes.map Prod.fst).foldlM (fun state action => execute action state) (put values) =
      some (put (updated (changes.map Prod.snd) values)) := by
  induction changes generalizing values with
  | nil => rfl
  | cons change changes ih =>
    rw [List.map_cons, List.nodup_cons] at distinct
    have first := each change List.mem_cons_self values (start change List.mem_cons_self)
    have others : ∀ other ∈ changes,
        Function.update values change.2.1 change.2.2 other.2.1 = old other.2.1 := by
      intro other member
      have apart : other.2.1 ≠ change.2.1 := fun same =>
        distinct.1 (List.mem_map.mpr ⟨other, member, same⟩)
      rw [Function.update_of_ne apart]
      exact start other (List.mem_cons_of_mem _ member)
    rw [List.map_cons, List.foldlM_cons, first]
    exact ih distinct.2 (fun other member => each other (List.mem_cons_of_mem _ member)) others

theorem runDifference {A S : Type*} {execute : A → S → Option S} {put : (K → Option V) → S} {old new : List (K × V)}
    (oldKeys : (old.map Prod.fst).Nodup) (newKeys : (new.map Prod.fst).Nodup) {changed : K × V → Bool}
    {assign drop : K × V → A}
    (others : ∀ row ∈ new, changed row = false → row ∈ old)
    (assigns : ∀ row ∈ new, changed row = true → ∀ values : K → Option V, values row.1 = find row.1 old →
      execute (assign row) (put values) = some (put (Function.update values row.1 (some row.2))))
    (drops : ∀ row ∈ unlisted old new, ∀ values : K → Option V,
      execute (drop row) (put values) = some (put (Function.update values row.1 none))) :
    ((new.filter changed).map assign ++ (unlisted old new).map drop).foldlM (fun state action => execute action state)
      (put fun key => find key old) = some (put fun key => find key new) := by
  let changes : List (A × K × Option V) := (new.filter changed).map (fun row => (assign row, row.1, some row.2)) ++
    (unlisted old new).map fun row => (drop row, row.1, none)
  have keys : changes.map (fun change => change.2.1) =
      (new.filter changed).map Prod.fst ++ (unlisted old new).map Prod.fst := by
    simp [changes, List.map_map, Function.comp_def]
  have once : (changes.map fun change => change.2.1).Nodup := by
    rw [keys]
    refine List.nodup_append.mpr ⟨newKeys.sublist (List.filter_sublist.map _),
      oldKeys.sublist (List.filter_sublist.map _), ?_⟩
    rintro key left other right rfl
    obtain ⟨row, inside, rfl⟩ := List.mem_map.mp left
    obtain ⟨row', inside', same⟩ := List.mem_map.mp right
    exact (memUnlisted.mp inside').2 (same ▸ List.mem_map_of_mem (List.mem_of_mem_filter inside))
  have each : ∀ change ∈ changes, ∀ values : K → Option V, values change.2.1 = find change.2.1 old →
      execute change.1 (put values) = some (put (Function.update values change.2.1 change.2.2)) := by
    intro change member values here
    rcases List.mem_append.mp member with listed | left
    · obtain ⟨row, inside, rfl⟩ := List.mem_map.mp listed
      exact assigns row (List.mem_of_mem_filter inside) (List.mem_filter.mp inside).2 values here
    · obtain ⟨row, inside, rfl⟩ := List.mem_map.mp left
      exact drops row inside values
  have run := @runUpdates K V _ A S execute put (find · old) changes once each (find · old) fun _ _ => rfl
  have actions : changes.map Prod.fst = (new.filter changed).map assign ++ (unlisted old new).map drop := by
    simp [changes, List.map_map, Function.comp_def]
  rw [← actions]
  refine run.trans (congrArg (fun values => some (put values))
    (updatedTo (by rwa [List.map_map]) ?_ fun key absent => ?_))
  · intro change member
    obtain ⟨whole, found, rfl⟩ := List.mem_map.mp member
    rcases List.mem_append.mp found with listed | left
    · obtain ⟨row, inside, rfl⟩ := List.mem_map.mp listed
      exact ((findIff newKeys).mpr (List.mem_of_mem_filter inside)).symm
    · obtain ⟨row, inside, rfl⟩ := List.mem_map.mp left
      exact (findNone.mpr (memUnlisted.mp inside).2).symm
  · have keys : (changes.map Prod.snd).map Prod.fst = changes.map fun change => change.2.1 := List.map_map ..
    rw [keys] at absent
    cases listed : find key new with
    | some value =>
      have inside := (findIff newKeys).mp listed
      refine (findIff oldKeys).mpr (others _ inside ?_)
      by_contra other
      refine absent (List.mem_map.mpr ⟨_, List.mem_append_left _ (List.mem_map_of_mem (a := (key, value)) ?_), rfl⟩)
      exact List.mem_filter.mpr ⟨inside, by simpa using other⟩
    | none =>
      by_contra there
      obtain ⟨value, here⟩ := Option.ne_none_iff_exists'.mp there
      refine absent (List.mem_map.mpr ⟨_, List.mem_append_right _ (List.mem_map_of_mem (a := (key, value)) ?_), rfl⟩)
      exact memUnlisted.mpr ⟨(findIff oldKeys).mp here, findNone.mp listed⟩

section Effects
variable {A S : Type*} {execute : A → S → Option S} {put : (K → Option V) → S} {effect : A → Option (K × Option V)}
  {keyOf : A → K}

theorem runKeeps
    (each : ∀ action values, execute action (put values) =
      (effect action).map fun change => put (Function.update values change.1 change.2))
    (own : ∀ action, ∀ change ∈ effect action, change.1 = keyOf action) {actions : List A} {old : K → Option V}
    {after : S} (run : actions.foldlM (fun state action => execute action state) (put old) = some after) :
    ∃ new, after = put new ∧ ∀ key, key ∉ actions.map keyOf → new key = old key := by
  induction actions generalizing old with
  | nil =>
    cases run
    exact ⟨old, rfl, fun _ _ => rfl⟩
  | cons action actions ih =>
    rw [List.foldlM_cons, each] at run
    obtain ⟨_, first, rest⟩ := Option.bind_eq_some_iff.mp run
    obtain ⟨change, found, rfl⟩ := Option.map_eq_some_iff.mp first
    obtain ⟨new, same, kept⟩ := ih rest
    refine ⟨new, same, fun key absent => ?_⟩
    rw [List.map_cons, List.mem_cons, not_or] at absent
    rw [kept key absent.2, Function.update_of_ne (own action change found ▸ absent.1)]

theorem runExactly (inj : Function.Injective put)
    (each : ∀ action values, execute action (put values) =
      (effect action).map fun change => put (Function.update values change.1 change.2))
    (own : ∀ action, ∀ change ∈ effect action, change.1 = keyOf action) {actions : List A}
    (distinct : (actions.map keyOf).Nodup) {old new : K → Option V}
    (others : ∀ key, key ∉ actions.map keyOf → old key = new key) :
    actions.foldlM (fun state action => execute action state) (put old) = some (put new) ↔
      ∀ action ∈ actions, effect action = some (keyOf action, new (keyOf action)) := by
  induction actions generalizing old with
  | nil =>
    have same : old = new := funext fun key => others key List.not_mem_nil
    simp [same]
  | cons action actions ih =>
    rw [List.map_cons, List.nodup_cons] at distinct
    rw [List.foldlM_cons, each, List.forall_mem_cons]
    cases here : effect action with
    | none => simp
    | some change =>
      have key := own action change here
      have step : (Option.map (fun change => put (Function.update old change.1 change.2)) (some change) >>=
          fun state => actions.foldlM (fun state action => execute action state) state) =
          actions.foldlM (fun state action => execute action state) (put (Function.update old change.1 change.2)) := rfl
      rw [step]
      have later (right : change.2 = new (keyOf action)) :
          ∀ other, other ∉ actions.map keyOf → Function.update old change.1 change.2 other = new other := by
        intro other absent
        by_cases same : other = change.1
        · rw [same, Function.update_self, key, right]
        · rw [Function.update_of_ne same]
          exact others other (by simp [absent, key ▸ same])
      constructor
      · intro run
        obtain ⟨values, same, kept⟩ := runKeeps each own run
        have right : change.2 = new (keyOf action) := by
          have value := kept (keyOf action) distinct.1
          rw [inj same, value, ← key, Function.update_self]
        exact ⟨congrArg some (Prod.ext key right), (ih distinct.2 (later right)).mp run⟩
      · rintro ⟨same, rest⟩
        have right : change.2 = new (keyOf action) := congrArg Prod.snd (Option.some.inj same)
        exact (ih distinct.2 (later right)).mpr rest

end Effects

end PgAdmin.KeyedTable
