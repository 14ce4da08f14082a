import Mathlib.Data.List.Nodup
import Mathlib.Data.List.Forall2

/-! The fields of a record type, in order, and the edits of them. An edit that names a field which is not there,
or gives a name that is taken, is refused. -/
namespace RecordEdits

structure Field (ν τ : Type) where
  name : ν
  value : τ
  deriving DecidableEq

inductive Edit (ν τ : Type) where
  | rename (old new : ν)
  | set (name : ν) (value : τ)
  | drop (name : ν)
  | add (name : ν) (value : τ)

variable {ν τ : Type}

def names (fields : List (Field ν τ)) : List ν := fields.map Field.name

@[simp] theorem names_nil : names ([] : List (Field ν τ)) = [] := rfl

@[simp] theorem names_cons (f : Field ν τ) (fields : List (Field ν τ)) :
    names (f :: fields) = f.name :: names fields := rfl

@[simp] theorem names_append (left right : List (Field ν τ)) :
    names (left ++ right) = names left ++ names right := List.map_append

variable {before after : List (Field ν τ)} {f : Field ν τ}

theorem here : f.name ∈ names (before ++ f :: after) := by simp

theorem aside (distinct : (names (before ++ f :: after)).Nodup) :
    f.name ∉ names before ∧ f.name ∉ names after := by
  rw [names_append, names_cons, List.nodup_middle, List.nodup_cons, List.mem_append, not_or] at distinct
  exact distinct.1

theorem nodupDropped (distinct : (names (before ++ f :: after)).Nodup) : (names (before ++ after)).Nodup := by
  rw [names_append, names_cons, List.nodup_middle] at distinct
  rw [names_append]
  exact (List.nodup_cons.mp distinct).2

theorem nodupRenamed {g : Field ν τ} (distinct : (names (before ++ f :: after)).Nodup)
    (free : g.name = f.name ∨ g.name ∉ names (before ++ after)) : (names (before ++ g :: after)).Nodup := by
  have rest := nodupDropped distinct
  have absent : g.name ∉ names (before ++ after) := by
    rcases free with same | free
    · rw [same, names_append, List.mem_append, not_or]
      exact aside distinct
    · exact free
  rw [names_append, names_cons, List.nodup_middle, ← names_append]
  exact List.nodup_cons.mpr ⟨absent, rest⟩

section Execute
variable [DecidableEq ν]

def Edit.execute : Edit ν τ → List (Field ν τ) → Option (List (Field ν τ))
  | .rename old new, fields =>
    if old ∈ names fields ∧ new ∉ names fields then
      some (fields.map fun f => if f.name = old then { f with name := new } else f)
    else none
  | .set name value, fields =>
    if name ∈ names fields then some (fields.map fun f => if f.name = name then { f with value } else f) else none
  | .drop name, fields =>
    if name ∈ names fields then some (fields.filter (·.name ≠ name)) else none
  | .add name value, fields => if name ∉ names fields then some (fields ++ [⟨name, value⟩]) else none

theorem mapAside (change : Field ν τ → Field ν τ) {name : ν} {fields : List (Field ν τ)}
    (absent : name ∉ names fields) :
    fields.map (fun g => if g.name = name then change g else g) = fields := by
  have same : ∀ g ∈ fields, (if g.name = name then change g else g) = id g := fun g member =>
    if_neg fun equal : g.name = name => absent (equal ▸ List.mem_map_of_mem member)
  rw [List.map_congr_left same, List.map_id]

theorem mapAt (change : Field ν τ → Field ν τ) (distinct : (names (before ++ f :: after)).Nodup) :
    (before ++ f :: after).map (fun g => if g.name = f.name then change g else g) =
      before ++ change f :: after := by
  rw [List.map_append, List.map_cons, mapAside change (aside distinct).1, mapAside change (aside distinct).2,
    if_pos rfl]

theorem renameAt (distinct : (names (before ++ f :: after)).Nodup) (new : ν) :
    (Edit.rename f.name new).execute (before ++ f :: after) =
      if new ∉ names (before ++ f :: after) then some (before ++ { f with name := new } :: after) else none := by
  rw [Edit.execute, mapAt _ distinct]
  simp only [here, true_and]

theorem setAt (distinct : (names (before ++ f :: after)).Nodup) (value : τ) :
    (Edit.set f.name value).execute (before ++ f :: after) = some (before ++ { f with value } :: after) := by
  rw [Edit.execute, mapAt (fun g => { g with value }) distinct, if_pos here]

theorem dropAt (distinct : (names (before ++ f :: after)).Nodup) :
    (Edit.drop f.name).execute (before ++ f :: after) = some (before ++ after) := by
  have stays : ∀ {fields : List (Field ν τ)}, f.name ∉ names fields →
      fields.filter (·.name ≠ f.name) = fields := fun absent =>
    List.filter_eq_self.mpr fun g member => decide_eq_true fun same =>
      absent (same ▸ List.mem_map_of_mem member)
  rw [Edit.execute, if_pos here, List.filter_append, List.filter_cons_of_neg (by simp),
    stays (aside distinct).1, stays (aside distinct).2]

end Execute
end RecordEdits
