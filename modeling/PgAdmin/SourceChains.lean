import Mathlib.Data.List.Basic

/-! Objects some of which take a value from another one, their source, and keep a copy of it. The newest comes first, so
that a source stands behind the objects that take from it. -/
namespace SourceChains
variable {α β : Type}

structure Naming (α : Type) where
  id : α → ℕ
  source : α → Option ℕ

section Chains
variable (names : Naming α)

def Ordered : List α → Prop
  | [] => True
  | a :: older => (∀ b ∈ older, names.id b < names.id a) ∧
      (∀ source, names.source a = some source → source ∈ older.map names.id) ∧ Ordered older

def original? : List α → ℕ → Option α
  | [], _ => none
  | a :: older, id =>
    if names.id a = id then
      match names.source a with
      | none => some a
      | some source => original? older source
    else original? older id

def chain : List α → ℕ → List ℕ
  | [], _ => []
  | a :: older, id =>
    if names.id a = id then
      match names.source a with
      | none => [id]
      | some source => id :: chain older source
    else chain older id

def drop (gone : α → Bool) : List α → List α
  | [] => []
  | a :: older =>
    let kept := drop gone older
    let sourceKept := (names.source a).all fun source => kept.any fun b => names.id b = source
    if gone a || !sourceKept then kept else a :: kept

/- A part of the objects. -/
structure Field (β : Type) where
  get : α → β
  set : α → β → α
  setSame : ∀ a, set a (get a) = a
  idSet : ∀ a value, names.id (set a value) = names.id a
  sourceSet : ∀ a value, names.source (set a value) = names.source a

end Chains

variable {names : Naming α}

def read (field : Field names β) : List α → ℕ → Option (β × List α)
  | [], _ => none
  | a :: older, id =>
    if names.id a = id then
      match names.source a with
      | none => some (field.get a, a :: older)
      | some source => (read field older source).map fun (value, older) => (value, field.set a value :: older)
    else (read field older id).map fun (value, older) => (value, a :: older)

section Lookup
variable {xs : List α} {id i : ℕ} {o : α}

theorem chainInside (member : i ∈ chain names xs id) : i ∈ xs.map names.id := by
  induction xs generalizing id with
  | nil => simp [chain] at member
  | cons a older ih =>
    rw [List.map_cons, List.mem_cons]
    unfold chain at member
    split at member
    case isTrue here =>
      split at member
      case h_1 =>
        rw [List.mem_singleton] at member
        exact .inl (member.trans here.symm)
      case h_2 =>
        rcases List.mem_cons.mp member with rfl | member
        · exact .inl here.symm
        · exact .inr (ih member)
    case isFalse => exact .inr (ih member)

theorem chainOwner (member : i ∈ chain names xs id) : id ∈ xs.map names.id := by
  induction xs with
  | nil => simp [chain] at member
  | cons a older ih =>
    unfold chain at member
    split at member
    case isTrue here => exact List.mem_cons.mpr (.inl here.symm)
    case isFalse => exact List.mem_cons_of_mem _ (ih member)

theorem newerThan {a : α} (newer : ∀ b ∈ xs, names.id b < names.id a) (member : i ∈ xs.map names.id) :
    i < names.id a := by
  obtain ⟨b, inside, rfl⟩ := List.mem_map.mp member
  exact newer b inside

theorem chainSelf (member : id ∈ xs.map names.id) : id ∈ chain names xs id := by
  induction xs with
  | nil => simp at member
  | cons a older ih =>
    unfold chain
    split
    case isTrue => split <;> simp
    case isFalse other =>
      rcases List.mem_cons.mp member with same | member
      · exact absurd same.symm other
      · exact ih member

theorem originalFound (ordered : Ordered names xs) (member : id ∈ xs.map names.id) :
    ∃ o, original? names xs id = some o := by
  induction xs generalizing id with
  | nil => simp at member
  | cons a older ih =>
    unfold original?
    split
    case isTrue =>
      split
      case h_1 => exact ⟨a, rfl⟩
      case h_2 source takes => exact ih ordered.2.2 (ordered.2.1 source takes)
    case isFalse other =>
      rcases List.mem_cons.mp member with same | member
      · exact absurd same.symm other
      · exact ih ordered.2.2 member

theorem originalPlain (found : original? names xs id = some o) : o ∈ xs ∧ names.source o = none := by
  induction xs generalizing id with
  | nil => simp [original?] at found
  | cons a older ih =>
    unfold original? at found
    split at found
    case isTrue =>
      split at found
      case h_1 plain =>
        cases found
        exact ⟨List.mem_cons_self, plain⟩
      case h_2 =>
        have behind := ih found
        exact ⟨List.mem_cons_of_mem _ behind.1, behind.2⟩
    case isFalse =>
      have behind := ih found
      exact ⟨List.mem_cons_of_mem _ behind.1, behind.2⟩

theorem originalInside (found : original? names xs id = some o) : id ∈ xs.map names.id := by
  induction xs with
  | nil => simp [original?] at found
  | cons a older ih =>
    unfold original? at found
    split at found
    case isTrue here => exact List.mem_cons.mpr (.inl here.symm)
    case isFalse => exact List.mem_cons_of_mem _ (ih found)

theorem originalSelf {a : α} (ordered : Ordered names xs) (member : a ∈ xs) (plain : names.source a = none) :
    original? names xs (names.id a) = some a := by
  induction xs with
  | nil => simp at member
  | cons b older ih =>
    unfold original?
    rcases List.mem_cons.mp member with rfl | member
    · rw [if_pos rfl, plain]
    · have other : ¬ names.id b = names.id a := Nat.ne_of_gt (ordered.1 a member)
      rw [if_neg other]
      exact ih ordered.2.2 member

theorem originalBehind {a : α} (other : names.id a ≠ id) : original? names (a :: xs) id = original? names xs id := by
  rw [original?, if_neg other]

theorem chainOriginal (ordered : Ordered names xs) (member : i ∈ chain names xs id) :
    original? names xs i = original? names xs id := by
  induction xs generalizing id with
  | nil => rfl
  | cons a older ih =>
    have behind {source : ℕ} (inside : i ∈ chain names older source) :
        original? names (a :: older) i = original? names older source := by
      rw [originalBehind (Nat.ne_of_gt (newerThan ordered.1 (chainInside inside))), ih ordered.2.2 inside]
    by_cases here : names.id a = id
    · simp only [chain, if_pos here] at member
      cases takes : names.source a with
      | none =>
        rw [takes] at member
        rw [List.mem_singleton.mp member]
      | some source =>
        rw [takes] at member
        rcases List.mem_cons.mp member with rfl | member
        · rfl
        · rw [behind member, original?, if_pos here, takes]
    · rw [chain, if_neg here] at member
      rw [behind member, originalBehind here]

end Lookup

section Reading
variable {xs : List α} {id : ℕ} {o : α}

theorem readChain (field : Field names β) (ordered : Ordered names xs) (found : original? names xs id = some o) :
    read field xs id = some (field.get o,
      xs.map fun a => if names.id a ∈ chain names xs id then field.set a (field.get o) else a) := by
  induction xs generalizing id with
  | nil => simp [original?] at found
  | cons a older ih =>
    by_cases here : names.id a = id
    · cases takes : names.source a with
      | none =>
        simp only [original?, if_pos here, takes, Option.some.injEq] at found
        subst found
        have others : (older.map fun b => if names.id b = id then field.set b (field.get a) else b) = older := by
          refine (List.map_congr_left fun b inside => ?_).trans (List.map_id older)
          have other : names.id b ≠ id := here ▸ Nat.ne_of_lt (ordered.1 b inside)
          rw [if_neg other]
          rfl
        simp only [read, chain, if_pos here, takes, List.map_cons, List.mem_singleton, others, field.setSame]
      | some source =>
        simp only [original?, if_pos here, takes] at found
        have others : (older.map fun b => if names.id b ∈ id :: chain names older source then
            field.set b (field.get o) else b) =
            older.map fun b => if names.id b ∈ chain names older source then field.set b (field.get o) else b := by
          refine List.map_congr_left fun b inside => ?_
          have other : names.id b ≠ id := here ▸ Nat.ne_of_lt (ordered.1 b inside)
          simp [other]
        simp only [read, chain, if_pos here, takes, ih ordered.2.2 found, Option.map_some, List.map_cons, others,
          if_pos (here ▸ List.mem_cons_self : names.id a ∈ id :: chain names older source)]
    · rw [originalBehind here] at found
      have apart : names.id a ∉ chain names older id := fun member =>
        absurd (newerThan ordered.1 (chainInside member)) (Nat.lt_irrefl _)
      simp only [read, chain, if_neg here, ih ordered.2.2 found, Option.map_some, List.map_cons, if_neg apart]

end Reading

section Mapping
variable {xs : List α} {g : α → α}

theorem mapChain (keeps : ∀ a ∈ xs, names.id (g a) = names.id a ∧ names.source (g a) = names.source a) (id : ℕ) :
    chain names (xs.map g) id = chain names xs id := by
  induction xs generalizing id with
  | nil => rfl
  | cons a older ih =>
    obtain ⟨name, source⟩ := keeps a List.mem_cons_self
    have behind := ih fun b inside => keeps b (List.mem_cons_of_mem _ inside)
    simp only [List.map_cons, chain, name, source, behind]

theorem mapOriginal (keeps : ∀ a ∈ xs, names.id (g a) = names.id a ∧ names.source (g a) = names.source a) (id : ℕ) :
    original? names (xs.map g) id = (original? names xs id).map g := by
  induction xs generalizing id with
  | nil => rfl
  | cons a older ih =>
    obtain ⟨name, source⟩ := keeps a List.mem_cons_self
    have behind := ih fun b inside => keeps b (List.mem_cons_of_mem _ inside)
    simp only [List.map_cons, original?, name, source]
    by_cases here : names.id a = id
    · simp only [if_pos here]
      cases names.source a with
      | none => rfl
      | some source => exact behind source
    · simp only [if_neg here]
      exact behind id

theorem mapNames (keeps : ∀ a ∈ xs, names.id (g a) = names.id a ∧ names.source (g a) = names.source a) :
    (xs.map g).map names.id = xs.map names.id := by
  rw [List.map_map]
  exact List.map_congr_left fun a inside => (keeps a inside).1

theorem mapOrdered (keeps : ∀ a ∈ xs, names.id (g a) = names.id a ∧ names.source (g a) = names.source a)
    (ordered : Ordered names xs) : Ordered names (xs.map g) := by
  induction xs with
  | nil => trivial
  | cons a older ih =>
    obtain ⟨name, source⟩ := keeps a List.mem_cons_self
    have others := fun b inside => keeps b (List.mem_cons_of_mem a inside)
    refine ⟨fun b inside => ?_, fun i takes => ?_, ih others ordered.2.2⟩
    · obtain ⟨b', inside', rfl⟩ := List.mem_map.mp inside
      rw [name, (others b' inside').1]
      exact ordered.1 b' inside'
    · rw [mapNames others]
      exact ordered.2.1 i (source ▸ takes)

end Mapping

section Dropping
variable {xs : List α} {gone : α → Bool}

theorem dropSublist (gone : α → Bool) (xs : List α) : (drop names gone xs).Sublist xs := by
  induction xs with
  | nil => exact List.Sublist.refl []
  | cons a older ih =>
    simp only [drop]
    split
    · exact ih.cons a
    · exact ih.cons_cons a

theorem dropOrdered (ordered : Ordered names xs) : Ordered names (drop names gone xs) := by
  induction xs with
  | nil => trivial
  | cons a older ih =>
    simp only [drop]
    split
    case isTrue => exact ih ordered.2.2
    case isFalse stays =>
      refine ⟨fun b inside => ordered.1 b ((dropSublist gone older).subset inside), fun source takes => ?_,
        ih ordered.2.2⟩
      simp only [Bool.or_eq_true, Bool.not_eq_true', takes, Option.all_some, not_or, Bool.not_eq_false,
        List.any_eq_true, decide_eq_true_eq] at stays
      exact List.mem_map.mpr stays.2

theorem dropOriginal (ordered : Ordered names xs) {id : ℕ} (kept : id ∈ (drop names gone xs).map names.id) :
    original? names (drop names gone xs) id = original? names xs id := by
  induction xs generalizing id with
  | nil => rfl
  | cons a older ih =>
    have behind {i : ℕ} (inside : i ∈ (drop names gone older).map names.id) : names.id a ≠ i :=
      Nat.ne_of_gt (newerThan ordered.1 (((dropSublist gone older).map names.id).subset inside))
    have ordered' := @dropOrdered _ _ _ gone ordered
    simp only [drop] at kept ordered' ⊢
    split at kept
    case isTrue goes =>
      rw [if_pos goes, originalBehind (behind kept)]
      exact ih ordered.2.2 kept
    case isFalse stays =>
      rw [if_neg stays] at ordered' ⊢
      by_cases here : names.id a = id
      · simp only [original?, if_pos here]
        cases takes : names.source a with
        | none => rfl
        | some source => exact ih ordered.2.2 (ordered'.2.1 source takes)
      · rw [originalBehind here, originalBehind here]
        rcases List.mem_cons.mp kept with same | kept
        · exact absurd same.symm here
        · exact ih ordered.2.2 kept

end Dropping
end SourceChains
