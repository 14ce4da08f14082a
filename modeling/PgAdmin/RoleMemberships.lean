import PgAdmin.RoleDialog

/-! The loop over the listed roles, told by the memberships that the names stand for. -/
namespace PgAdmin.dlgRole
open PgsObjects (Text)
open KeyedTable (find drop unlisted)

section Names

theorem markedAppend (role : Text) : marked (role ++ mark) = true := by
  simp [marked]

theorem unmarkedAppend (role : Text) : unmarked (role ++ mark) = role := by
  simp [unmarked]

/- No role is named as another one is shown that is granted with admin option. -/
def Apart (names old : List Text) : Prop := ∀ role ∈ names, role ++ mark ∉ old

theorem shownInj {names old : List Text} (apart : Apart names old) {one other : Text × Bool} (known : one.1 ∈ names)
    (left : one.1 ∈ old) (right : other.1 ∈ names) (fresh : other.1 ∈ old ∨ marked other.1 = false)
    (same : shown one = shown other) : one = other := by
  obtain ⟨role, admin⟩ := one
  obtain ⟨role', admin'⟩ := other
  cases admin <;> cases admin'
  · exact congrArg (·, false) same
  · exact absurd ((show role = role' ++ mark from same) ▸ left) (apart role' right)
  · obtain rfl : role ++ mark = role' := same
    rcases fresh with before | bare
    · exact absurd before (apart role known)
    · exact absurd bare (by simp [markedAppend])
  · exact congrArg (·, true) (List.append_cancel_right same)

end Names

section Loop
variable (server : Server) {names : List Text} {old list : List (Text × Bool)}

def membershipAction (old : List (Text × Bool)) (membership : Text × Bool) : Action :=
  if membership.2 = false ∧ find membership.1 old = some true then .revokeAdmin (qtIdent server membership.1)
  else .grant (qtIdent server membership.1) membership.2

/- The names are of roles that differ, each once. -/
structure Plain (names : List Text) (old : List (Text × Bool)) : Prop where
  apart : Apart names (old.map Prod.fst)
  within : ∀ membership ∈ old, membership.1 ∈ names
  distinct : (old.map Prod.fst).Nodup

theorem Plain.drop (plain : Plain names old) (role : Text) : Plain names (drop role old) :=
  ⟨fun other known before => plain.apart other known ((List.filter_sublist.map _).subset before),
    fun membership inside => plain.within membership (List.mem_of_mem_filter inside),
    plain.distinct.sublist (List.filter_sublist.map _)⟩

theorem takenOut (plain : Plain names old) {membership : Text × Bool} (named : membership.1 ∈ names)
    (fresh : membership.1 ∈ old.map Prod.fst ∨ marked membership.1 = false) :
    ((old.map shown).any fun role => role = shown membership) = decide (find membership.1 old = some membership.2) ∧
      (old.map shown).eraseP (fun role => role = shown membership) =
        if find membership.1 old = some membership.2 then (drop membership.1 old).map shown else old.map shown := by
  by_cases found : find membership.1 old = some membership.2
  · have inside := (KeyedTable.findIff plain.distinct).mp found
    obtain ⟨before, after, split⟩ := List.append_of_mem inside
    have distinct := plain.distinct
    rw [split] at distinct
    have others : ∀ role ∈ before.map shown, ¬decide (role = shown membership) = true := by
      intro role member same
      obtain ⟨other, earlier, rfl⟩ := List.mem_map.mp member
      have known : other ∈ old := split ▸ List.mem_append_left _ earlier
      have same := shownInj plain.apart (plain.within other known) (List.mem_map_of_mem known) named fresh
        (of_decide_eq_true same)
      exact (KeyedTable.aside distinct).1 (List.mem_map.mpr ⟨other, earlier, congrArg Prod.fst same⟩)
    rw [if_pos found, decide_eq_true found]
    constructor
    · exact List.any_eq_true.mpr ⟨shown membership, List.mem_map_of_mem inside, decide_eq_true rfl⟩
    · rw [split, KeyedTable.dropHere distinct, List.map_append, List.map_cons, List.map_append,
        List.eraseP_append_right _ others,
        List.eraseP_cons_of_pos (p := fun role => role = shown membership) (decide_eq_true rfl)]
  · have none : ∀ role ∈ old.map shown, ¬decide (role = shown membership) = true := by
      intro role member same
      obtain ⟨other, inside, rfl⟩ := List.mem_map.mp member
      have same := shownInj plain.apart (plain.within other inside) (List.mem_map_of_mem inside) named fresh
        (of_decide_eq_true same)
      exact found ((KeyedTable.findIff plain.distinct).mpr (same ▸ inside))
    rw [if_neg found, decide_eq_false found, List.eraseP_of_forall_not none]
    exact ⟨List.any_eq_false.mpr none, rfl⟩

theorem membershipTurnIs (plain : Plain names old) {membership : Text × Bool} (named : membership.1 ∈ names)
    (fresh : find membership.1 old = some membership.2 ∨ marked membership.1 = false) :
    membershipTurn server (shown membership) (old.map shown) =
      (if find membership.1 old = some membership.2 then [] else [membershipAction server old membership],
        (drop membership.1 old).map shown) := by
  obtain ⟨role, admin⟩ := membership
  have known : role ∈ old.map Prod.fst ∨ marked role = false := fresh.imp_left fun found =>
    List.mem_map_of_mem ((KeyedTable.findIff plain.distinct).mp found)
  obtain ⟨foundPlain, erasedPlain⟩ := takenOut plain (show (role, false).1 ∈ names from named) known
  obtain ⟨foundMarked, erasedMarked⟩ := takenOut plain (show (role, true).1 ∈ names from named) known
  change ((old.map shown).any fun other => other = role) = _ at foundPlain
  change ((old.map shown).any fun other => other = role ++ mark) = _ at foundMarked
  change (old.map shown).eraseP (fun other => other = role) = _ at erasedPlain
  change (old.map shown).eraseP (fun other => other = role ++ mark) = _ at erasedMarked
  have absent : find role old = none → drop role old = old := fun none =>
    KeyedTable.dropAbsent (KeyedTable.findNone.mp none)
  cases admin with
  | false =>
    simp only [membershipTurn, shown, membershipAction, Bool.false_eq_true, if_false, foundPlain, foundMarked,
      erasedPlain, erasedMarked]
    cases here : find role old with
    | none =>
      have bare : marked role = false := fresh.resolve_left (by simp [here])
      simp [bare, absent here]
    | some old =>
      cases old with
      | false => simp
      | true =>
        have bare : marked role = false := fresh.resolve_left (by simp [here])
        simp [bare]
  | true =>
    simp only [membershipTurn, shown, membershipAction, if_true, foundMarked, erasedPlain, erasedMarked, markedAppend,
      unmarkedAppend]
    cases here : find role old with
    | none => simp [absent here]
    | some old => cases old <;> simp

theorem membershipLoopIs (plain : Plain names old) (distinct : (list.map Prod.fst).Nodup)
    (named : ∀ membership ∈ list, membership.1 ∈ names)
    (fresh : ∀ membership ∈ list, find membership.1 old = some membership.2 ∨ marked membership.1 = false) :
    membershipLoop server (list.map shown) (old.map shown) =
      ((list.filter fun membership => find membership.1 old ≠ some membership.2).map (membershipAction server old),
        (unlisted old list).map shown) := by
  induction list generalizing old with
  | nil =>
    rw [KeyedTable.unlistedNil]
    rfl
  | cons membership list ih =>
    rw [List.map_cons, List.nodup_cons] at distinct
    have other : ∀ m ∈ list, find m.1 (drop membership.1 old) = find m.1 old := fun m member =>
      KeyedTable.findDrop (fun same => distinct.1 (List.mem_map.mpr ⟨m, member, same⟩)) old
    have rest := ih (plain.drop membership.1) distinct.2 (fun m member => named m (List.mem_cons_of_mem _ member))
      (fun m member => other m member ▸ fresh m (List.mem_cons_of_mem _ member))
    have changes : (list.filter fun m => find m.1 (drop membership.1 old) ≠ some m.2).map
        (membershipAction server (drop membership.1 old)) =
        (list.filter fun m => find m.1 old ≠ some m.2).map (membershipAction server old) := by
      rw [List.filter_congr fun m member => by rw [other m member]]
      refine List.map_congr_left fun m member => ?_
      rw [membershipAction, membershipAction, other m (List.mem_of_mem_filter member)]
    rw [changes, KeyedTable.unlistedDrop] at rest
    rw [List.map_cons, membershipLoop,
      membershipTurnIs server plain (named _ List.mem_cons_self) (fresh _ List.mem_cons_self)]
    simp only [rest, List.filter_cons]
    by_cases same : find membership.1 old = some membership.2 <;> simp [same]

end Loop

end PgAdmin.dlgRole
