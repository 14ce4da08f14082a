import Mathlib.Data.List.Nodup

/-! A table of values by key, and what a list of updates does to it. -/
namespace PgAdmin.KeyedTable

variable {K V : Type*}

theorem aside {key : K} {value : V} {before after : List (K × V)}
    (distinct : ((before ++ (key, value) :: after).map Prod.fst).Nodup) :
    key ∉ before.map Prod.fst ∧ key ∉ after.map Prod.fst := by
  rw [List.map_append, List.map_cons, List.nodup_middle, List.nodup_cons, List.mem_append, not_or] at distinct
  exact distinct.1

variable [DecidableEq K]

def set (key : K) (value : V) (table : List (K × V)) : List (K × V) :=
  table.map fun row => if row.1 = key then (key, value) else row

def drop (key : K) (table : List (K × V)) : List (K × V) := table.filter fun row => row.1 ≠ key

theorem setAbsent {key : K} {table : List (K × V)} (absent : key ∉ table.map Prod.fst) (value : V) :
    set key value table = table := by
  have others : ∀ row ∈ table, (if row.1 = key then (key, value) else row) = row := fun row member =>
    if_neg fun (same : row.1 = key) => absent (same ▸ List.mem_map_of_mem member)
  exact (List.map_congr_left others).trans (List.map_id _)

theorem dropAbsent {key : K} {table : List (K × V)} (absent : key ∉ table.map Prod.fst) : drop key table = table :=
  List.filter_eq_self.mpr fun _ member => decide_eq_true fun same => absent (same ▸ List.mem_map_of_mem member)

theorem dropHere {key : K} {value : V} {before after : List (K × V)}
    (distinct : ((before ++ (key, value) :: after).map Prod.fst).Nodup) :
    drop key (before ++ (key, value) :: after) = before ++ after := by
  obtain ⟨left, right⟩ := aside distinct
  rw [drop, List.filter_append, List.filter_cons_of_neg (by simp)]
  exact congr (congrArg _ (dropAbsent left)) (dropAbsent right)

theorem setHere {key : K} {old : V} {before after : List (K × V)}
    (distinct : ((before ++ (key, old) :: after).map Prod.fst).Nodup) (value : V) :
    set key value (before ++ (key, old) :: after) = before ++ (key, value) :: after := by
  obtain ⟨left, right⟩ := aside distinct
  rw [set, List.map_append, List.map_cons, if_pos rfl]
  exact congr (congrArg _ (setAbsent left value)) (congrArg _ (setAbsent right value))

theorem setEach (rows : List (K × V × Option V)) {front : List (K × V)}
    (distinct : (front.map Prod.fst ++ rows.map Prod.fst).Nodup) :
    (rows.filterMap fun row => row.2.2.map (row.1, ·)).foldl (fun table (update : K × V) => set update.1 update.2 table)
      (front ++ rows.map fun row => (row.1, row.2.1)) =
    front ++ rows.map fun row => (row.1, row.2.2.getD row.2.1) := by
  induction rows generalizing front with
  | nil => rfl
  | cons row rows ih =>
    obtain ⟨key, old, new⟩ := row
    have next (value : V) : ((front ++ [(key, value)]).map Prod.fst ++ rows.map Prod.fst).Nodup := by
      simpa using distinct
    cases new with
    | none =>
      have rest := ih (next old)
      simpa using rest
    | some value =>
      have rest := ih (next value)
      have keys : ((front ++ (key, old) :: rows.map fun row => (row.1, row.2.1)).map Prod.fst).Nodup := by
        simpa [List.map_map, Function.comp_def] using distinct
      simp only [List.filterMap_cons, Option.map_some, List.foldl_cons, List.map_cons]
      rw [setHere keys]
      simpa using rest

end PgAdmin.KeyedTable
