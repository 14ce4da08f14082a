import PgAdmin.WxString
import PgAdmin.NeighbourInsert

/-! The labels of an enum type in the type dialog. New labels are put anywhere in the list; the statements
place each of them beside an old label, in the order of the list. -/
namespace PgAdmin.dlgType
open PgsObjects (Text)
open NeighbourInsert

/- What FindItem of the list control takes for the text looked for: at least the text itself. -/
structure LabelMatch where
  same : Text → Text → Bool
  self : ∀ label, same label label = true

def stripped (txtLabel : Text) : Text := wxString.Trim (txtLabel.dropWhile wxString.isSpace)

section List
variable (found : LabelMatch)

def OnLabelAddBefore (txtLabel : Text) (selected : Option ℕ) (lstLabels : List Text) : List Text :=
  let label := stripped txtLabel
  if label = [] then lstLabels
  else if lstLabels.any (found.same label) then lstLabels
  else lstLabels.insertIdx (selected.getD 0) label

def OnLabelAddAfter (txtLabel : Text) (selected : Option ℕ) (lstLabels : List Text) : List Text :=
  let label := stripped txtLabel
  if label = [] then lstLabels
  else if lstLabels.any (found.same label) then lstLabels
  else lstLabels.insertIdx (selected.elim lstLabels.length (· + 1)) label

/- The lists that clicks make of the labels of the type. -/
inductive Shown (elements : List Text) : List Text → Prop where
  | opened : Shown elements elements
  | before {lstLabels txtLabel selected} (shown : Shown elements lstLabels)
      (row : ∀ i ∈ selected, i < lstLabels.length) :
      Shown elements (OnLabelAddBefore found txtLabel selected lstLabels)
  | after {lstLabels txtLabel selected} (shown : Shown elements lstLabels)
      (row : ∀ i ∈ selected, i < lstLabels.length) :
      Shown elements (OnLabelAddAfter found txtLabel selected lstLabels)

end List

/- wxArrayString::Item. The sum of a size_t and -1 is out of range at 0. -/
def Item (elements : List Text) (index : ℤ) : Option Text := if 0 ≤ index then elements[index.toNat]? else none

/- The statements for the labels from listitemsIndex on, or nothing when an index is out of range. -/
def addValues (elements : List Text) (listitemsIndex existingitemsIndex : ℕ) :
    List Text → Option (List (Placement Text))
  | [] => some []
  | label :: labels =>
    if elements.length ≤ existingitemsIndex ∨ some label ≠ elements[existingitemsIndex]? then do
      let (direction, offset) := if listitemsIndex = 0 then (Direction.before, (0 : ℤ)) else (.after, -1)
      let neighbour ← Item elements (existingitemsIndex + offset)
      let rest ← addValues elements (listitemsIndex + 1) existingitemsIndex labels
      some (⟨label, direction, neighbour⟩ :: rest)
    else addValues elements (listitemsIndex + 1) (existingitemsIndex + 1) labels

def directionText : Direction → Text
  | .before => "BEFORE".toList
  | .after => "AFTER".toList

/- The enum part of GetSql. -/
def GetSqlLabels (objname : Text) (qtDbString : Text → Text) (elements lstLabels : List Text) : Option Text :=
  (addValues elements 0 0 lstLabels).map fun stmts => stmts.flatMap fun p =>
    "ALTER TYPE ".toList ++ objname ++ "\n  ADD VALUE ".toList ++ qtDbString p.value ++ " ".toList ++
      directionText p.direction ++ " ".toList ++ qtDbString p.neighbour ++ ";\n".toList

structure Merging (elements lstLabels done old todo rest : List Text) : Prop where
  distinct : lstLabels.Nodup
  elementsSplit : elements = old ++ todo
  listSplit : lstLabels = done ++ rest
  behind : old.Sublist done
  ahead : todo.Sublist rest

section Merging
variable {elements lstLabels done old todo rest : List Text} {label : Text}

theorem Merging.start (distinct : lstLabels.Nodup) (kept : elements.Sublist lstLabels) :
    Merging elements lstLabels [] [] elements lstLabels :=
  ⟨distinct, rfl, rfl, .slnil, kept⟩

theorem Merging.fresh (m : Merging elements lstLabels done old todo (label :: rest)) :
    label ∉ done ∧ label ∉ rest := by
  have distinct := m.distinct
  rw [m.listSplit, List.nodup_append, List.nodup_cons] at distinct
  exact ⟨fun inside => distinct.2.2 _ inside _ List.mem_cons_self rfl, distinct.2.1.1⟩

theorem Merging.oldHead (m : Merging elements lstLabels done old todo (label :: rest))
    (member : label ∈ elements) : ∃ todo', todo = label :: todo' ∧
      Merging elements lstLabels (done ++ [label]) (old ++ [label]) todo' rest := by
  have notOld : label ∉ old := fun inside => m.fresh.1 (m.behind.subset inside)
  have inTodo : label ∈ todo := by
    rw [m.elementsSplit] at member
    exact (List.mem_append.mp member).resolve_left notOld
  cases m.ahead with
  | cons _ ahead => exact absurd (ahead.subset inTodo) m.fresh.2
  | @cons_cons todo' _ _ ahead => exact ⟨todo', rfl, m.distinct, by rw [m.elementsSplit]; simp,
      by rw [m.listSplit]; simp, m.behind.append (.refl _), ahead⟩

theorem Merging.newHead (m : Merging elements lstLabels done old todo (label :: rest))
    (new : label ∉ elements) : Merging elements lstLabels (done ++ [label]) old todo rest := by
  refine ⟨m.distinct, m.elementsSplit, by rw [m.listSplit]; simp, ?_, ?_⟩
  · exact m.behind.trans (List.sublist_append_left ..)
  · cases m.ahead with
    | cons _ ahead => exact ahead
    | cons_cons => exact absurd (by rw [m.elementsSplit]; simp) new

theorem addValuesOld (m : Merging elements lstLabels done old todo (label :: rest))
    (member : label ∈ elements) : addValues elements done.length old.length (label :: rest) =
      addValues elements (done ++ [label]).length (old ++ [label]).length rest := by
  obtain ⟨todo', rfl, -⟩ := m.oldHead member
  have here : elements[old.length]? = some label := by rw [m.elementsSplit]; simp
  have inside : old.length < elements.length := (List.getElem?_eq_some_iff.mp here).1
  rw [addValues, if_neg (by rw [here]; simpa using inside)]
  simp

theorem addValuesNew (m : Merging elements lstLabels done old todo (label :: rest))
    (new : label ∉ elements) : addValues elements done.length old.length (label :: rest) =
      (Item elements (old.length + if done = [] then 0 else -1)).bind fun neighbour =>
      (addValues elements (done ++ [label]).length old.length rest).map
        (⟨label, if done = [] then .before else .after, neighbour⟩ :: ·) := by
  have other : elements.length ≤ old.length ∨ some label ≠ elements[old.length]? :=
    .inr fun here => new (List.mem_of_getElem? here.symm)
  rw [addValues, if_pos other]
  cases done with
  | nil => simp [Option.map_eq_bind]
  | cons => simp [Option.map_eq_bind]

theorem Merging.oldLast {last : Text} (m : Merging elements lstLabels (done ++ [last]) old todo rest)
    (member : last ∈ elements) : last ∉ done ∧ ∃ old', old = old' ++ [last] := by
  have distinct := m.distinct
  rw [m.listSplit, List.append_assoc, List.nodup_append, List.singleton_append, List.nodup_cons] at distinct
  have notDone : last ∉ done := fun inside => distinct.2.2 _ inside _ List.mem_cons_self rfl
  have inOld : last ∈ old := by
    rw [m.elementsSplit] at member
    exact (List.mem_append.mp member).resolve_right fun inside => distinct.2.1.1 (m.ahead.subset inside)
  obtain ⟨front, back, rfl, inDone, inLast⟩ := List.sublist_append_iff.mp m.behind
  refine ⟨notDone, front, ?_⟩
  cases inLast with
  | cons _ none =>
    cases none
    rw [List.append_nil] at inOld
    exact absurd (inDone.subset inOld) notDone
  | cons_cons _ none => cases none; rfl

theorem itemLast (old todo : List Text) (last : Text) :
    Item (old ++ [last] ++ todo) ((old ++ [last]).length + -1) = some last := by
  have index : ((old ++ [last]).length + -1 : ℤ) = old.length := by simp
  rw [index, Item, if_pos (Int.natCast_nonneg _), Int.toNat_natCast]
  simp

end Merging

section Order
variable {elements lstLabels done old todo rest : List Text}

/- One of two neighbours is an old label. -/
def Beside (elements : List Text) (a b : Text) : Prop := a ∈ elements ∨ b ∈ elements

local instance labelLawful : LawfulBEq Text := inferInstance

instance (elements : List Text) (a b : Text) : Decidable (Beside elements a b) := by
  unfold Beside; infer_instance

theorem placedNext {label : Text} (m : Merging elements lstLabels done old todo (label :: rest))
    (new : label ∉ elements) (some_ : elements ≠ []) (beside : ∀ last ∈ done.getLast?, last ∈ elements) :
    ∃ neighbour, Item elements (old.length + if done = [] then 0 else -1) = some neighbour ∧
      (⟨label, if done = [] then .before else .after, neighbour⟩ : Placement Text).execute (done ++ todo) =
        some (done ++ [label] ++ todo) := by
  have fresh : label ∉ done ++ todo := by
    rw [List.mem_append, not_or]
    exact ⟨m.fresh.1, fun inside => new (by rw [m.elementsSplit]; exact List.mem_append_right _ inside)⟩
  rcases List.eq_nil_or_concat done with rfl | ⟨done, last, rfl⟩
  · cases List.sublist_nil.mp m.behind
    obtain ⟨x, todo', rfl⟩ := List.exists_cons_of_ne_nil (l := todo)
      fun none => some_ (by rw [m.elementsSplit, none]; rfl)
    refine ⟨x, by simp [m.elementsSplit, Item], ?_⟩
    rw [Placement.execute, if_neg fresh]
    exact placeAt List.not_mem_nil _ rfl _
  · rw [List.concat_eq_append] at *
    have nonempty : done ++ [last] ≠ [] := by simp
    obtain ⟨notDone, old', rfl⟩ := m.oldLast (beside last (by simp))
    refine ⟨last, by rw [if_neg nonempty, m.elementsSplit]; exact itemLast .., ?_⟩
    rw [Placement.execute, if_neg fresh, List.append_assoc, List.singleton_append,
      placeAt notDone _ rfl, if_neg nonempty]
    simp

theorem placedAll (m : Merging elements lstLabels done old todo rest)
    (apart : (done.getLast?.toList ++ rest).IsChain (Beside elements)) (some_ : elements ≠ []) :
    ∃ stmts, addValues elements done.length old.length rest = some stmts ∧
      run stmts (done ++ todo) = some lstLabels := by
  induction rest generalizing done old todo with
  | nil =>
    cases List.sublist_nil.mp m.ahead
    exact ⟨[], rfl, by rw [m.listSplit]; rfl⟩
  | cons label rest ih =>
    have apart' : ((done ++ [label]).getLast?.toList ++ rest).IsChain (Beside elements) := by
      simpa using apart.suffix (List.suffix_append ..)
    by_cases member : label ∈ elements
    · rw [addValuesOld m member]
      obtain ⟨todo', rfl, next⟩ := m.oldHead member
      simpa using ih next apart'
    · have beside : ∀ last ∈ done.getLast?, last ∈ elements := fun last here => by
        rw [Option.mem_def.mp here] at apart
        exact (List.isChain_cons_cons.mp apart).1.resolve_right member
      obtain ⟨neighbour, item, placed⟩ := placedNext m member some_ beside
      obtain ⟨stmts, made, ran⟩ := ih (m.newHead member) apart'
      rw [addValuesNew m member, item, made]
      exact ⟨_, rfl, by rw [runCons, placed]; exact ran⟩

theorem neighboursTurned {a b : Text} {s : List Text} {stmts : List (Placement Text)}
    (m : Merging elements lstLabels done old todo (a :: b :: rest)) (newA : a ∉ elements)
    (newB : b ∉ elements) (made : addValues elements done.length old.length (a :: b :: rest) = some stmts) :
    run stmts s ≠ some lstLabels := by
  intro ran
  have next := m.newHead newA
  rw [addValuesNew m newA, addValuesNew next newB, if_neg (by simp : done ++ [a] ≠ []),
    if_neg (by simp : done ++ [a] ≠ [])] at made
  obtain ⟨x, itemA, madeA⟩ := Option.bind_eq_some_iff.mp made
  obtain ⟨stmtsA, madeRest, rfl⟩ := Option.map_eq_some_iff.mp madeA
  obtain ⟨y, itemB, madeB⟩ := Option.bind_eq_some_iff.mp madeRest
  obtain ⟨stmtsB, -, rfl⟩ := Option.map_eq_some_iff.mp madeB
  have later : done ≠ [] := by
    rintro rfl
    cases List.sublist_nil.mp m.behind
    cases itemB
  rw [if_neg later] at itemA ran
  cases itemA.symm.trans itemB
  rw [runCons] at ran
  obtain ⟨s₁, placedA, ran⟩ := Option.bind_eq_some_iff.mp ran
  rw [runCons] at ran
  obtain ⟨s₂, placedB, ran⟩ := Option.bind_eq_some_iff.mp ran
  have grown := (placeGrows (executed placedB).2).trans (runGrows ran)
  have turned : [b, a].Sublist s₂ := afterComesFirst (p := ⟨b, .after, x⟩) (m.distinct.sublist grown) rfl
    (afterFollows (p := ⟨a, .after, x⟩) rfl (executed placedA).2) (executed placedB).2
  have listed : [a, b].Sublist lstLabels := by
    rw [m.listSplit]
    exact (((List.nil_sublist rest).cons_cons b).cons_cons a).trans (List.sublist_append_right ..)
  exact notBothWays m.distinct listed (turned.trans (runGrows ran))

theorem apartOfPlaced {s : List Text} {stmts : List (Placement Text)}
    (m : Merging elements lstLabels done old todo rest)
    (made : addValues elements done.length old.length rest = some stmts)
    (ran : run stmts s = some lstLabels) : rest.IsChain (Beside elements) := by
  induction rest generalizing done old todo s stmts with
  | nil => exact .nil
  | cons label rest ih =>
    by_cases member : label ∈ elements
    · obtain ⟨todo', rfl, next⟩ := m.oldHead member
      rw [addValuesOld m member] at made
      exact List.isChain_cons.mpr ⟨fun _ _ => .inl member, ih next made ran⟩
    · refine List.isChain_cons.mpr ⟨fun b here => .inr ?_, ?_⟩
      · obtain ⟨rest, rfl⟩ := List.head?_eq_some_iff.mp (Option.mem_def.mp here)
        by_contra newB
        exact neighboursTurned m member newB made ran
      · rw [addValuesNew m member] at made
        obtain ⟨x, item, madeRest⟩ := Option.bind_eq_some_iff.mp made
        obtain ⟨stmts, madeTail, rfl⟩ := Option.map_eq_some_iff.mp madeRest
        rw [runCons] at ran
        obtain ⟨s, placed, ran⟩ := Option.bind_eq_some_iff.mp ran
        exact ih (m.newHead member) madeTail ran

end Order

section Shown
variable {found : LabelMatch} {elements lstLabels : List Text}

theorem insertIdxSublist (labels : List Text) (i : ℕ) (label : Text) :
    labels.Sublist (labels.insertIdx i label) := by
  induction labels generalizing i with
  | nil => exact List.nil_sublist _
  | cons x rest ih =>
    cases i with
    | zero => exact List.sublist_cons_self _ _
    | succ i => exact (ih i).cons_cons x

theorem addKeeps (label : Text) (i : ℕ) (inside : i ≤ lstLabels.length) (distinct : lstLabels.Nodup)
    (kept : elements.Sublist lstLabels) (unknown : lstLabels.any (found.same label) = false) :
    (lstLabels.insertIdx i label).Nodup ∧ elements.Sublist (lstLabels.insertIdx i label) := by
  have fresh : label ∉ lstLabels := fun member => by
    rw [List.any_eq_false] at unknown
    exact unknown label member (found.self label)
  exact ⟨(List.perm_insertIdx label lstLabels inside).nodup_iff.mpr (List.nodup_cons.mpr ⟨fresh, distinct⟩),
    kept.trans (insertIdxSublist ..)⟩

theorem shownKeeps (distinct : elements.Nodup) (shown : Shown found elements lstLabels) :
    lstLabels.Nodup ∧ elements.Sublist lstLabels := by
  induction shown with
  | opened => exact ⟨distinct, .refl _⟩
  | @before lstLabels txtLabel selected shown row ih =>
    rw [OnLabelAddBefore]
    split_ifs with empty known
    · exact ih
    · exact ih
    · refine addKeeps _ _ ?_ ih.1 ih.2 (Bool.eq_false_iff.mpr known)
      cases selected with
      | none => exact Nat.zero_le _
      | some i => exact (row i rfl).le
  | @after lstLabels txtLabel selected shown row ih =>
    rw [OnLabelAddAfter]
    split_ifs with empty known
    · exact ih
    · exact ih
    · refine addKeeps _ _ ?_ ih.1 ih.2 (Bool.eq_false_iff.mpr known)
      cases selected with
      | none => exact le_rfl
      | some i => exact row i rfl

/- The statements are written, each of them can be executed, and they give the labels of the list. -/
def Placed (elements lstLabels : List Text) : Prop :=
  ∃ stmts, addValues elements 0 0 lstLabels = some stmts ∧ run stmts elements = some lstLabels

theorem labelsPlaced (found : LabelMatch) (elements lstLabels : List Text) (distinct : elements.Nodup)
    (shown : Shown found elements lstLabels) : Placed elements lstLabels ↔
      lstLabels.IsChain (Beside elements) ∧ (elements = [] → lstLabels = []) := by
  obtain ⟨listed, kept⟩ := shownKeeps distinct shown
  have start := Merging.start listed kept
  constructor
  · rintro ⟨stmts, made, ran⟩
    refine ⟨apartOfPlaced start made ran, ?_⟩
    rintro rfl
    cases lstLabels with
    | nil => rfl
    | cons label labels =>
      have refused := addValuesNew start List.not_mem_nil
      cases refused.symm.trans made
  · rintro ⟨apart, some_⟩
    by_cases none : elements = []
    · cases none
      cases some_ rfl
      exact ⟨[], rfl, rfl⟩
    · exact placedAll start (by simpa using apart) none

def exactMatch : LabelMatch := ⟨fun a b => a == b, fun _ => beq_self_eq_true _⟩

theorem oneLabelPlaced : Placed ["a".toList, "c".toList] ["a".toList, "b".toList, "c".toList] :=
  (labelsPlaced exactMatch _ _ (by decide)
    (@Shown.after _ _ ["a".toList, "c".toList] " b".toList (some 0) .opened (by decide))).mpr (by decide)

/- A label added after `a` and then another one before it: `b` is moved in front of the second. -/
theorem labelsTurned : ¬ ∀ (found : LabelMatch) (elements lstLabels : List Text), elements.Nodup →
    Shown found elements lstLabels → Placed elements lstLabels := by
  intro all
  have placed := all exactMatch ["a".toList] ["a".toList, "b".toList, "c".toList] (by decide)
    (@Shown.after _ _ ["a".toList, "b".toList] "c".toList none
      (@Shown.after _ _ ["a".toList] "b".toList none .opened (by decide)) (by decide))
  obtain ⟨stmts, made, ran⟩ := placed
  cases made
  revert ran
  decide

end Shown

end PgAdmin.dlgType
