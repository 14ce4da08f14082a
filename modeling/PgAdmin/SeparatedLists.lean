import Mathlib.Data.List.Basic

/-! Items with a separator between them: reading such a list back, and lists in which two separators take turns, one
binding closer than the other. -/
namespace SeparatedLists
variable {τ α β : Type*}

section Reading
variable [DecidableEq τ]

def sepBy (item : List τ → Option (α × List τ)) (sep : τ) : ℕ → List τ → Option (List α × List τ)
  | 0, _ => none
  | fuel + 1, tokens => do
    let (first, rest) ← item tokens
    match rest with
    | [] => some ([first], [])
    | token :: rest =>
      if token = sep then
        let (more, rest) ← sepBy item sep fuel rest
        some (first :: more, rest)
      else some ([first], token :: rest)

variable {item : List τ → Option (α × List τ)} {sep : τ} {print : α → List τ}

theorem sepByLast {fuel : ℕ} {tokens rest : List τ} {first : α} (reads : item tokens = some (first, rest))
    (other : rest.head? ≠ some sep) : sepBy item sep (fuel + 1) tokens = some ([first], rest) := by
  cases rest with
  | nil => simp [sepBy, reads]
  | cons token rest =>
    have differs : token ≠ sep := fun same => other (by rw [same]; rfl)
    simp [sepBy, reads, differs]

theorem sepByMore {fuel : ℕ} {tokens rest rest' : List τ} {first : α} {more : List α}
    (reads : item tokens = some (first, sep :: rest)) (next : sepBy item sep fuel rest = some (more, rest')) :
    sepBy item sep (fuel + 1) tokens = some (first :: more, rest') := by
  simp [sepBy, reads, next]

theorem sepByPrinted (ends : List τ → Prop) {items : List α}
    (reads : ∀ a ∈ items, ∀ rest, ends rest → item (print a ++ rest) = some (a, rest))
    (separates : ∀ rest, ends (sep :: rest)) (nonempty : items ≠ []) {rest : List τ} (stops : ends rest)
    (other : rest.head? ≠ some sep) {fuel : ℕ} (enough : items.length ≤ fuel) :
    sepBy item sep fuel ([sep].intercalate (items.map print) ++ rest) = some (items, rest) := by
  induction items generalizing fuel with
  | nil => exact absurd rfl nonempty
  | cons first items ih =>
    obtain ⟨fuel, rfl⟩ : ∃ fuel', fuel = fuel' + 1 := ⟨fuel - 1, by simp at enough; omega⟩
    have here := reads first List.mem_cons_self
    cases items with
    | nil => simpa using sepByLast (here rest stops) other
    | cons second items =>
      have next := ih (fun a mem => reads a (List.mem_cons_of_mem _ mem)) (by simp) (Nat.le_of_succ_le_succ enough)
      simp only [List.map_cons, List.intercalate_cons_cons, List.append_assoc, List.singleton_append] at next ⊢
      exact sepByMore (here _ (separates _)) next

end Reading

section Groups
variable (loose : β → Bool)

def groups : List (α × β) → List (List α)
  | [] => []
  | [(a, _)] => [[a]]
  | (a, separator) :: next :: rest =>
    if loose separator then [a] :: groups (next :: rest)
    else match groups (next :: rest) with
      | [] => [[a]]
      | first :: more => (a :: first) :: more

def linked (print : α → List τ) (separator : β → List τ) : List (α × β) → List τ
  | [] => []
  | [(a, _)] => print a
  | (a, b) :: next :: rest => print a ++ separator b ++ linked print separator (next :: rest)

theorem groupsNonempty {items : List (α × β)} (nonempty : items ≠ []) : groups loose items ≠ [] := by
  match items with
  | [] => exact absurd rfl nonempty
  | [(a, _)] => simp [groups]
  | (a, separator) :: next :: rest =>
    simp only [groups]
    split_ifs
    · simp
    · split <;> simp

theorem groupFilled (items : List (α × β)) : ∀ group ∈ groups loose items, group ≠ [] := by
  induction items using groups.induct loose with
  | case1 => simp [groups]
  | case2 a separator => simp [groups]
  | case3 a separator next rest is ih =>
    simp only [groups, is, if_true, List.mem_cons]
    rintro group (rfl | mem)
    · simp
    · exact ih group mem
  | case4 a separator next rest not empty ih => simp [groups, not, empty]
  | case5 a separator next rest not first more here ih =>
    simp only [groups, not, if_false, here, List.mem_cons, Bool.false_eq_true]
    rintro group (rfl | mem)
    · simp
    · exact ih group (here ▸ List.mem_cons_of_mem _ mem)

theorem linkedGroups (print : α → List τ) (separator : β → List τ) {strong weak : τ}
    (tokens : ∀ b, separator b = if loose b then [weak] else [strong]) (items : List (α × β)) :
    linked print separator items =
      [weak].intercalate ((groups loose items).map fun group => [strong].intercalate (group.map print)) := by
  induction items using groups.induct loose with
  | case1 => simp [linked, groups]
  | case2 a separator => simp [linked, groups]
  | case3 a separator next rest is ih =>
    obtain ⟨first, more, here⟩ := List.exists_cons_of_ne_nil (groupsNonempty loose
      (List.cons_ne_nil next rest))
    rw [linked, ih, tokens, if_pos is]
    simp [groups, is, here, List.intercalate_cons_cons]
  | case4 a separator next rest not empty ih => exact absurd empty (groupsNonempty loose (List.cons_ne_nil next rest))
  | case5 a separator next rest not first more here ih =>
    have filled : first ≠ [] := groupFilled loose (next :: rest) first (here ▸ List.mem_cons_self)
    obtain ⟨second, first, rfl⟩ := List.exists_cons_of_ne_nil filled
    rw [linked, ih, tokens, if_neg not, here]
    cases more <;> simp [groups, not, here, List.intercalate_cons_cons]

theorem linkedFlatMap (print : α → List τ) (separator : β → List τ) (items : List (α × β)) (a : α) (b : β) :
    (items ++ [(a, b)]).flatMap (fun item => print item.1 ++ separator item.2) =
      linked print separator (items ++ [(a, b)]) ++ separator b := by
  induction items with
  | nil => simp [linked]
  | cons item items ih =>
    obtain ⟨next, rest, shape⟩ := List.exists_cons_of_ne_nil (List.append_ne_nil_of_right_ne_nil items
      (List.cons_ne_nil (a, b) []))
    rw [List.cons_append, List.flatMap_cons, ih, shape, linked]
    simp only [List.append_assoc]

theorem linkedAlike (print : α → List τ) (separator : List τ) (items : List α) :
    linked print (fun _ => separator) (items.map fun a => (a, ())) = separator.intercalate (items.map print) := by
  induction items with
  | nil => rfl
  | cons a items ih =>
    cases items with
    | nil => simp [linked]
    | cons next rest =>
      simp only [List.map_cons, linked, List.intercalate_cons_cons] at ih ⊢
      rw [ih]

theorem groupsFlatten (items : List (α × β)) : (groups loose items).flatten = items.map Prod.fst := by
  induction items using groups.induct loose with
  | case1 => rfl
  | case2 a separator => rfl
  | case3 a separator next rest is ih => simp [groups, is, ih]
  | case4 a separator next rest not empty ih => exact absurd empty (groupsNonempty loose (List.cons_ne_nil next rest))
  | case5 a separator next rest not first more here ih =>
    rw [here] at ih
    simpa [groups, not, here] using ih

theorem groupsBefore (front : List (α × β)) (strong : ∀ item ∈ front, loose item.2 = false) {rest : List (α × β)}
    (nonempty : rest ≠ []) : ∃ first more, groups loose rest = first :: more ∧
      groups loose (front ++ rest) = (front.map Prod.fst ++ first) :: more := by
  obtain ⟨first, more, here⟩ := List.exists_cons_of_ne_nil (groupsNonempty loose nonempty)
  refine ⟨first, more, here, ?_⟩
  induction front with
  | nil => exact here
  | cons item front ih =>
    obtain ⟨a, separator⟩ := item
    have last := ih fun item mem => strong item (List.mem_cons_of_mem _ mem)
    have close : loose separator = false := strong (a, separator) List.mem_cons_self
    obtain ⟨next, tail, shape⟩ := List.exists_cons_of_ne_nil (List.append_ne_nil_of_right_ne_nil front nonempty)
    rw [shape] at last
    rw [List.cons_append, shape]
    simp [groups, close, last]

theorem groupsStrong {items : List (α × β)} (strong : ∀ item ∈ items, loose item.2 = false) (nonempty : items ≠ []) :
    groups loose items = [items.map Prod.fst] := by
  induction items with
  | nil => exact absurd rfl nonempty
  | cons item items ih =>
    obtain ⟨a, separator⟩ := item
    cases items with
    | nil => rfl
    | cons next rest =>
      have close : loose separator = false := strong (a, separator) List.mem_cons_self
      have last := ih (fun item mem => strong item (List.mem_cons_of_mem _ mem)) (List.cons_ne_nil next rest)
      simp [groups, close, last]

end Groups

end SeparatedLists
