import Mathlib.Data.List.Perm.Basic

/-! An array that is walked by position while elements are taken out of it. Taking out the element
at the position, or an equal one before it, moves the next element to a place the walk has passed,
so that one is not visited. -/
namespace PositionIterator
variable {α : Type} [DecidableEq α]

/- What is left of the array and what was visited. Each turn has a further position, so there are no
more turns than elements. -/
def walk (drops : List α → α → Bool) : ℕ → ℕ → List α → List α × List α
  | 0, _, xs => (xs, [])
  | fuel + 1, position, xs =>
    match xs[position]? with
    | none => (xs, [])
    | some x =>
      let rest := walk drops fuel (position + 1) (if drops xs x then xs.erase x else xs)
      (rest.1, x :: rest.2)

def walkAll (drops : List α → α → Bool) (xs : List α) : List α × List α :=
  walk drops xs.length 0 xs

def skips (p : α → Bool) : List α → List α
  | [] => []
  | [_] => []
  | x :: y :: xs => if p x then y :: skips p xs else skips p (y :: xs)

def visits (p : α → Bool) : List α → List α
  | [] => []
  | [x] => [x]
  | x :: y :: xs => x :: if p x then visits p xs else visits p (y :: xs)

variable {p : α → Bool} {x : α} {xs ys front back : List α} {fuel : ℕ}

theorem eraseKept (drop : p x = true) : (xs.erase x).filter (!p ·) = xs.filter (!p ·) := by
  induction xs with
  | nil => rfl
  | cons y xs ih =>
    rw [List.erase_cons]
    by_cases same : y = x
    · subst same
      simp [drop]
    · rw [if_neg (by simpa using same), List.filter_cons, List.filter_cons, ih]

theorem walkSome (drops : List α → α → Bool) (front back : List α) (x : α) :
    walk drops (fuel + 1) front.length (front ++ x :: back) =
      let rest := walk drops fuel (front.length + 1)
        (if drops (front ++ x :: back) x then (front ++ x :: back).erase x else front ++ x :: back)
      (rest.1, x :: rest.2) := by
  have here : (front ++ x :: back)[front.length]? = some x := by simp
  rw [walk, here]

theorem erasedFront (front back : List α) (x y : α) : ∃ passed,
    passed.Perm (front ++ [y]) ∧ (front ++ x :: y :: back).erase x = passed ++ back := by
  by_cases before : x ∈ front
  · refine ⟨front.erase x ++ [x, y], ?_, ?_⟩
    · have again : (front.erase x ++ [x]).Perm front :=
        (List.perm_append_singleton x _).trans (List.perm_cons_erase before).symm
      simpa using again.append_right [y]
    · rw [List.erase_append_left _ before]
      simp
  · refine ⟨front ++ [y], .refl _, ?_⟩
    rw [List.erase_append_right _ before, List.erase_cons_head]
    simp

theorem walkFrom (drops : List α → α → Bool) (front back : List α) (enough : back.length ≤ fuel)
    (same : ∀ ys, ys.filter (!p ·) = (front ++ back).filter (!p ·) → ∀ x, drops ys x = p x) :
    (walk drops fuel front.length (front ++ back)).1.filter (!p ·) =
      (front ++ back).filter (!p ·) ∧
    (walk drops fuel front.length (front ++ back)).1.countP p =
      front.countP p + (skips p back).countP p ∧
    (walk drops fuel front.length (front ++ back)).2 = visits p back := by
  induction back using skips.induct p generalizing front fuel with
  | case1 => cases fuel <;> simp [walk, skips, visits]
  | case2 x =>
    obtain ⟨fuel, rfl⟩ := Nat.exists_eq_succ_of_ne_zero (Nat.ne_zero_of_lt enough)
    have passed : ∀ ys : List α, ys.length ≤ front.length + 1 →
        walk drops fuel (front.length + 1) ys = (ys, []) := by
      intro ys short
      cases fuel with
      | zero => rfl
      | succ fuel => rw [walk, List.getElem?_eq_none short]
    rw [walkSome, same _ rfl]
    by_cases drop : p x = true
    · rw [if_pos drop, passed _ (Nat.le_trans List.length_erase_le (by simp))]
      refine ⟨eraseKept drop, ?_, rfl⟩
      have member : x ∈ front ++ [x] := List.mem_append_right _ (List.mem_singleton_self x)
      have count := (List.perm_cons_erase member).countP_eq p
      rw [List.countP_cons, if_pos drop, List.countP_append, List.countP_singleton, if_pos drop] at count
      simp only [skips, List.countP_nil]
      omega
    · rw [if_neg drop, passed _ (by simp)]
      simp [skips, visits, drop]
  | case3 x y back drop ih =>
    obtain ⟨fuel, rfl⟩ := Nat.exists_eq_succ_of_ne_zero (Nat.ne_zero_of_lt enough)
    obtain ⟨passed, perm, erased⟩ := erasedFront front back x y
    have length : passed.length = front.length + 1 := by simpa using perm.length_eq
    have kept : (passed ++ back).filter (!p ·) = (front ++ x :: y :: back).filter (!p ·) :=
      erased ▸ eraseKept drop
    have short : back.length ≤ fuel := by
      simp only [List.length_cons] at enough
      omega
    obtain ⟨filter, count, seen⟩ := ih passed short fun ys sameYs => same ys (sameYs.trans kept)
    rw [walkSome, same _ rfl, if_pos drop, erased, ← length]
    refine ⟨filter.trans kept, ?_, ?_⟩
    · rw [count, perm.countP_eq]
      simp only [skips, if_pos drop, List.countP_append, List.countP_cons, List.countP_nil]
      omega
    · rw [visits, if_pos drop]
      exact congrArg (x :: ·) seen
  | case4 x y back keep ih =>
    obtain ⟨fuel, rfl⟩ := Nat.exists_eq_succ_of_ne_zero (Nat.ne_zero_of_lt enough)
    have shift : front ++ x :: y :: back = (front ++ [x]) ++ y :: back := by simp
    have short : (y :: back).length ≤ fuel := Nat.le_of_succ_le_succ enough
    obtain ⟨filter, count, seen⟩ := ih (front ++ [x]) short (shift ▸ same)
    rw [walkSome, same _ rfl, if_neg keep, shift]
    rw [List.length_append, List.length_singleton] at filter count seen
    refine ⟨filter, ?_, ?_⟩
    · rw [count]
      simp [skips, keep]
    · rw [visits, if_neg keep]
      exact congrArg (x :: ·) seen

theorem walkSublist (drops : List α → α → Bool) (position : ℕ) (xs : List α) :
    (walk drops fuel position xs).1.Sublist xs := by
  induction fuel generalizing position xs with
  | zero => exact .refl xs
  | succ fuel ih =>
    rw [walk]
    cases xs[position]? with
    | none => exact .refl xs
    | some x =>
      dsimp only
      split
      · exact (ih _ _).trans List.erase_sublist
      · exact ih _ _

theorem walkAllSpec (drops : List α → α → Bool) (xs : List α)
    (same : ∀ ys, ys.filter (!p ·) = xs.filter (!p ·) → ∀ x, drops ys x = p x) :
    (walkAll drops xs).1.filter (!p ·) = xs.filter (!p ·) ∧
      (walkAll drops xs).1.countP p = (skips p xs).countP p ∧
      (walkAll drops xs).2 = visits p xs := by
  have whole := walkFrom drops [] xs (Nat.le_refl _) same
  rw [List.countP_nil, Nat.zero_add] at whole
  exact whole

omit [DecidableEq α] in
theorem visitsSkips (p : α → Bool) (xs : List α) : (visits p xs ++ skips p xs).Perm xs := by
  induction xs using skips.induct p with
  | case1 => exact .refl _
  | case2 x => exact .refl _
  | case3 x y xs drop ih =>
    rw [visits, skips, if_pos drop, if_pos drop, List.cons_append]
    exact (List.perm_middle.trans (ih.cons y)).cons x
  | case4 x y xs keep ih =>
    rw [visits, skips, if_neg keep, if_neg keep, List.cons_append]
    exact ih.cons x

omit [DecidableEq α] in
theorem skipsCongr {q : α → Bool} (same : ∀ x ∈ xs, p x = q x) :
    visits p xs = visits q xs ∧ skips p xs = skips q xs := by
  induction xs using skips.induct p with
  | case1 => exact ⟨rfl, rfl⟩
  | case2 => exact ⟨rfl, rfl⟩
  | case3 x y xs drop ih =>
    obtain ⟨seen, passed⟩ := ih fun z member =>
      same z (List.mem_cons_of_mem _ (List.mem_cons_of_mem _ member))
    have dropToo := (same x List.mem_cons_self).symm.trans drop
    simp only [visits, skips, if_pos drop, if_pos dropToo, seen, passed, and_self]
  | case4 x y xs keep ih =>
    obtain ⟨seen, passed⟩ := ih fun z member => same z (List.mem_cons_of_mem _ member)
    have keepToo : ¬ q x = true := same x List.mem_cons_self ▸ keep
    simp only [visits, skips, if_neg keep, if_neg keepToo, seen, passed, and_self]

theorem countsAgree (drops : List α → α → Bool) (xs : List α)
    (same : ∀ ys, ys.filter (!p ·) = xs.filter (!p ·) → ∀ x, drops ys x = p x) :
    (walkAll drops xs).1.length = (walkAll drops xs).2.countP (!p ·) ↔ skips p xs = [] := by
  obtain ⟨kept, dropped, seen⟩ := walkAllSpec drops xs same
  have stays : (walkAll drops xs).1.countP (!p ·) = xs.countP (!p ·) := by
    rw [List.countP_eq_length_filter, kept, ← List.countP_eq_length_filter]
  have parts := (visitsSkips p xs).countP_eq (!p ·)
  have split : ∀ ys : List α, ys.length = ys.countP p + ys.countP (!p ·) := fun ys => by
    simpa using List.length_eq_countP_add_countP p (l := ys)
  rw [List.countP_append] at parts
  have passed := split (skips p xs)
  rw [split, dropped, stays, ← parts, seen, ← List.length_eq_zero_iff]
  omega

theorem nonePassed (drops : List α → α → Bool) (xs : List α)
    (same : ∀ ys, ys.filter (!p ·) = xs.filter (!p ·) → ∀ x, drops ys x = p x)
    (none : skips p xs = []) : (walkAll drops xs).1 = xs.filter (!p ·) := by
  obtain ⟨kept, dropped, -⟩ := walkAllSpec drops xs same
  rw [none, List.countP_nil, List.countP_eq_zero] at dropped
  rw [← kept]
  exact (List.filter_eq_self.mpr fun x left => by simpa using dropped x left).symm

theorem visitedMember (drops : List α → α → Bool) (xs : List α)
    (same : ∀ ys, ys.filter (!p ·) = xs.filter (!p ·) → ∀ x, drops ys x = p x) {x : α}
    (visited : x ∈ (walkAll drops xs).2) : x ∈ xs := by
  rw [(walkAllSpec drops xs same).2.2] at visited
  exact (visitsSkips p xs).subset (List.mem_append_left _ visited)

omit [DecidableEq α] in
theorem skipsNone : (skips p xs).countP p = 0 ↔
    xs.IsChain fun a b => ¬ (p a = true ∧ p b = true) := by
  induction xs using skips.induct p with
  | case1 => simp [skips]
  | case2 => simp [skips]
  | case3 x y xs drop ih =>
    have behind : (y :: xs).IsChain (fun a b => ¬ (p a = true ∧ p b = true)) ∧ p y = false ↔
        xs.IsChain (fun a b => ¬ (p a = true ∧ p b = true)) ∧ p y = false := by
      refine and_congr_left fun unset => ?_
      cases xs with
      | nil => simp
      | cons z xs => simp [List.isChain_cons_cons, unset]
    rw [skips, if_pos drop, List.countP_cons, List.isChain_cons_cons]
    cases next : p y with
    | true => simp [drop]
    | false => simpa [drop, next, ih] using behind.symm
  | case4 x y xs keep ih =>
    rw [skips, if_neg keep, ih, List.isChain_cons_cons]
    simp [keep]

omit [DecidableEq α] in
theorem staysFirst (stays : xs.filter (!p ·) = [x]) :
    skips p xs = [] ↔ ∃ rest, xs = x :: rest ∧ rest.length ≤ 1 := by
  have unset : p x = false := by
    have member : x ∈ xs.filter (!p ·) := stays ▸ List.mem_singleton_self x
    simpa using (List.mem_filter.mp member).2
  cases xs with
  | nil => simp at stays
  | cons y rest =>
    cases first : p y with
    | true =>
      rw [List.filter_cons_of_neg (by simp [first])] at stays
      have other : y ≠ x := fun same => by rw [same, unset] at first; cases first
      cases rest with
      | nil => cases stays
      | cons z rest => simp [skips, first, other]
    | false =>
      rw [List.filter_cons_of_pos (by simp [first])] at stays
      obtain ⟨rfl, none⟩ := List.cons.inj stays
      have dropped : ∀ z ∈ rest, p z = true := by simpa using none
      cases rest with
      | nil => simp [skips]
      | cons z rest =>
        rw [skips, if_neg (by simp [first])]
        cases rest with
        | nil => simp [skips]
        | cons w rest => simp [skips, dropped z List.mem_cons_self]

end PositionIterator
