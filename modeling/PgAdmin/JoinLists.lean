import Mathlib.Data.List.Nodup
import Mathlib.Tactic.ByContra
import PgAdmin.LinkLists
import PgAdmin.QueryJoins

/-! What the lists of joins agree on: a join with both ends is at its source, at its destination and in the
grid, once each. -/
namespace PgAdmin.gqbJoins
open LinkLists

namespace gqbQueryJoin
variable {join : gqbQueryJoin} {s d : ℕ}

theorem endsSome : join.ends = some (s, d) ↔ join.owner = some s ∧ join.destination = some d := by
  rw [ends]
  split
  case h_1 owner destination => simp [owner, destination]
  case h_2 missing =>
    constructor
    · intro set
      cases set
    · rintro ⟨owner, destination⟩
      exact (missing _ _ owner destination).elim

theorem endsNone : join.ends = none ↔ join.owner = none ∨ join.destination = none := by
  rw [ends]
  split
  case h_1 owner destination => simp [owner, destination]
  case h_2 missing =>
    refine ⟨fun _ => ?_, fun _ => rfl⟩
    cases owner : join.owner with
    | none => exact .inl rfl
    | some s =>
      cases destination : join.destination with
      | none => exact .inr rfl
      | some d => exact (missing _ _ owner destination).elim

end gqbQueryJoin

def gqbQueryJoin.Within (join : gqbQueryJoin) (tables : List ℕ) : Prop :=
  ∀ isSource, (∀ t, join.table? isSource = some t → t ∈ tables) ∧
    (join.table? isSource = none → join.column? isSource = none)

namespace Model

def link (m : Model) (j : ℕ) : Option (ℕ × ℕ) := (m.join j).bind (·.ends)

def own (m : Model) (t : ℕ) : List ℕ := (m.joinsCollection t).getD []

def registered (m : Model) (t : ℕ) : List ℕ := (m.registeredCollection t).getD []

structure Indexed (m : Model) : Prop where
  own : Listed m.link Prod.fst m.own
  registered : Listed m.link Prod.snd m.registered

structure Kept (m : Model) : Prop where
  indexed : m.Indexed
  once : m.queryCollection.Nodup
  tables : ∀ t, t ∈ m.queryCollection ↔ (m.parent t).isSome
  freshTable : ∀ t ∈ m.queryCollection, t < m.next
  freshJoin : ∀ j join, m.join j = some join → j < m.next
  rows : m.joins.Nodup
  live : ∀ j ∈ m.joins, (m.join j).isSome
  linked : ∀ j, (m.link j).isSome → j ∈ m.joins
  within : ∀ j ∈ m.joins, ∀ join, m.join j = some join → join.Within m.queryCollection

variable {m : Model} {j s d : ℕ} {join : gqbQueryJoin}

theorem linkSome (here : m.join j = some join) (ends : join.ends = some (s, d)) :
    m.link j = some (s, d) := by
  rw [link, here]
  exact ends

theorem linkUpdate (m : Model) (j : ℕ) (join : Option gqbQueryJoin) :
    (fun i => (Function.update m.join j join i).bind (·.ends)) =
      Function.update m.link j (join.bind (·.ends)) := by
  funext i
  by_cases same : i = j
  · subst same
    simp
  · simp [same, link]

def unlinked (m : Model) (j s d : ℕ) : Model :=
  { m with
    join := Function.update m.join j none
    joinsCollection := Function.update m.joinsCollection s (kept ((m.own s).erase j))
    registeredCollection := Function.update m.registeredCollection d (kept ((m.registered d).erase j)) }

theorem keptItems (items : List ℕ) : (kept items).getD [] = items := by
  cases items <;> rfl

theorem listedUpdate (collection : ℕ → Option (List ℕ)) (t : ℕ) (items : Option (List ℕ)) :
    (fun u => (Function.update collection t items u).getD []) =
      Function.update (fun u => (collection u).getD []) t (items.getD []) := by
  funext u
  by_cases same : u = t
  · subst same
    simp
  · simp [same]

theorem Indexed.unlinked (indexed : m.Indexed) (here : m.link j = some (s, d)) :
    (m.unlinked j s d).Indexed := by
  have links : (m.unlinked j s d).link = Function.update m.link j none := m.linkUpdate j none
  have owns : (m.unlinked j s d).own = Function.update m.own s ((m.own s).erase j) := by
    have update := listedUpdate m.joinsCollection s (kept ((m.own s).erase j))
    rwa [keptItems] at update
  have registers : (m.unlinked j s d).registered =
      Function.update m.registered d ((m.registered d).erase j) := by
    have update := listedUpdate m.registeredCollection d (kept ((m.registered d).erase j))
    rwa [keptItems] at update
  constructor
  · rw [links, owns]
    exact indexed.own.unlinked here
  · rw [links, registers]
    exact indexed.registered.unlinked here

theorem collectionThere {items : Option (List ℕ)} (member : j ∈ items.getD []) : items = some (items.getD []) := by
  cases items with
  | none => cases member
  | some items => rfl

theorem Indexed.ownThere (indexed : m.Indexed) (here : m.link j = some (s, d)) :
    m.joinsCollection s = some (m.own s) :=
  collectionThere (((indexed.own s).2 j).mpr ⟨_, here, rfl⟩)

theorem Indexed.registeredThere (indexed : m.Indexed) (here : m.link j = some (s, d)) :
    m.registeredCollection d = some (m.registered d) :=
  collectionThere (((indexed.registered d).2 j).mpr ⟨_, here, rfl⟩)

theorem linkEnds (here : m.link j = some (s, d)) :
    ∃ join, m.join j = some join ∧ join.owner = some s ∧ join.destination = some d := by
  obtain ⟨join, live, ends⟩ := Option.bind_eq_some_iff.mp here
  exact ⟨join, live, gqbQueryJoin.endsSome.mp ends⟩

theorem unregisterJoin_eq (indexed : m.Indexed) (here : m.link j = some (s, d)) :
    gqbQueryObject.unregisterJoin m d j true = some (m.unlinked j s d) := by
  obtain ⟨join, live, owner, -⟩ := linkEnds here
  simp [gqbQueryObject.unregisterJoin, gqbQueryObject.removeOwn, indexed.registeredThere here, live, owner,
    indexed.ownThere here, unlinked]

theorem removeJoin_eq (indexed : m.Indexed) (here : m.link j = some (s, d)) :
    gqbQueryObject.removeJoin m s j true = some (m.unlinked j s d) := by
  obtain ⟨join, live, -, destination⟩ := linkEnds here
  simp [gqbQueryObject.removeJoin, gqbQueryObject.unregisterJoin, gqbQueryObject.removeOwn,
    indexed.registeredThere here, live, destination, indexed.ownThere here, unlinked]

structure Without (m : Model) (gone : ℕ × ℕ → Prop) (m' : Model) : Prop where
  indexed : m'.Indexed
  queryCollection : m'.queryCollection = m.queryCollection
  parent : m'.parent = m.parent
  joins : m'.joins = m.joins
  next : m'.next = m.next
  removed : ∀ j e, m.link j = some e → gone e → m'.join j = none
  others : ∀ j, (∀ e, m.link j = some e → ¬ gone e) → m'.join j = m.join j

theorem unlinkedJoin (m : Model) (j s d : ℕ) : (m.unlinked j s d).join = Function.update m.join j none := rfl

theorem unlinkedLink (m : Model) (j s d : ℕ) :
    (m.unlinked j s d).link = Function.update m.link j none := m.linkUpdate j none

section Loop
variable (emptied : Bool) {collection : Model → Option (List ℕ)} {remove : Model → ℕ → Option Model}
  {gone : ℕ × ℕ → Prop}
  (lists : ∀ m, m.Indexed → Fibre ((collection m).getD []) fun j => ∃ e, m.link j = some e ∧ gone e)
  (removes : ∀ m j e, m.Indexed → m.link j = some e → gone e → remove m j = some (m.unlinked j e.1 e.2))
  (shorter : ∀ m j e items, gone e → collection m = some items →
    collection (m.unlinked j e.1 e.2) = kept (items.erase j))
include lists removes shorter

theorem removeEach_eq (indexed : m.Indexed) {items : List ℕ} (there : collection m = kept items) :
    (emptied = true → ∃ m', gqbQueryObject.removeEach emptied collection remove (items.length + 1) m =
      some m' ∧ m.Without gone m') ∧
    (emptied = false → gqbQueryObject.removeEach emptied collection remove (items.length + 1) m = none) := by
  induction items generalizing m with
  | nil =>
    have none : collection m = none := there
    have unlisted : ∀ j e, m.link j = some e → ¬ gone e := fun j e here asked => by
      have member := ((lists m indexed).2 j).mpr ⟨e, here, asked⟩
      rw [none] at member
      cases member
    rw [List.length_nil, gqbQueryObject.removeEach, none]
    refine ⟨fun yes => ⟨m, if_pos yes, indexed, rfl, rfl, rfl, rfl, ?_, fun _ _ => rfl⟩, fun no => ?_⟩
    · exact fun j e here asked => absurd asked (unlisted j e here)
    · exact if_neg fun yes => Bool.false_ne_true (no.symm.trans yes)
  | cons item items ih =>
    have first : collection m = some (item :: items) := there
    have member : item ∈ (collection m).getD [] := by
      rw [first]
      exact List.mem_cons_self
    obtain ⟨e, here, asked⟩ := ((lists m indexed).2 item).mp member
    have rest : collection (m.unlinked item e.1 e.2) = kept items := by
      rw [shorter m item e _ asked first, List.erase_cons_head]
    obtain ⟨ends, loops⟩ := ih (indexed.unlinked here) rest
    rw [List.length_cons, gqbQueryObject.removeEach, first]
    dsimp only
    rw [removes m item e indexed here asked, Option.bind_some]
    refine ⟨fun yes => ?_, loops⟩
    obtain ⟨m', done, without⟩ := ends yes
    refine ⟨m', done, without.indexed, without.queryCollection, without.parent, without.joins, without.next,
      fun j e' here' asked' => ?_, fun j other => ?_⟩
    · by_cases same : j = item
      · subst same
        rw [without.others j fun e'' here'' => ?_, unlinkedJoin, Function.update_self]
        rw [unlinkedLink, Function.update_self] at here''
        cases here''
      · refine without.removed j e' ?_ asked'
        rwa [unlinkedLink, Function.update_of_ne same]
    · have same : j ≠ item := by
        rintro rfl
        exact other e here asked
      rw [without.others j fun e'' here'' => ?_, unlinkedJoin, Function.update_of_ne same]
      rw [unlinkedLink, Function.update_of_ne same] at here''
      exact other e'' here''

theorem removeAll_eq (indexed : m.Indexed) :
    (emptied = true ∨ (∀ j e, m.link j = some e → ¬ gone e) →
      ∃ m', gqbQueryObject.removeAll emptied collection remove m = some m' ∧ m.Without gone m') ∧
    (emptied = false → (∃ j e, m.link j = some e ∧ gone e) →
      gqbQueryObject.removeAll emptied collection remove m = none) := by
  have unlisted : (collection m).getD [] = [] → m.Without gone m := by
    refine fun empty => ⟨indexed, rfl, rfl, rfl, rfl, fun j e here asked => ?_, fun _ _ => rfl⟩
    have member := ((lists m indexed).2 j).mpr ⟨e, here, asked⟩
    rw [empty] at member
    cases member
  rw [gqbQueryObject.removeAll]
  rcases there : collection m with _ | _ | ⟨item, items⟩
  · have without := unlisted (by rw [there]; rfl)
    refine ⟨fun _ => ⟨m, rfl, without⟩, fun _ ⟨j, e, here, asked⟩ => ?_⟩
    have dead := without.removed j e here asked
    rw [link, dead] at here
    cases here
  · have without := unlisted (by rw [there]; rfl)
    refine ⟨fun _ => ⟨m, ?_, without⟩, fun _ ⟨j, e, here, asked⟩ => ?_⟩
    · simp [gqbQueryObject.removeEach, there]
    · have dead := without.removed j e here asked
      rw [link, dead] at here
      cases here
  · obtain ⟨ends, loops⟩ := removeEach_eq emptied lists removes shorter indexed
      (show collection m = kept (item :: items) from there)
    refine ⟨fun able => ends ?_, fun no _ => loops no⟩
    rcases able with yes | none
    · exact yes
    · have member : item ∈ (collection m).getD [] := by
        rw [there]
        exact List.mem_cons_self
      obtain ⟨e, here, asked⟩ := ((lists m indexed).2 item).mp member
      exact absurd asked (none item e here)

end Loop

theorem Without.trans {gone gone' : ℕ × ℕ → Prop} {m₁ m₂ : Model} (first : m.Without gone m₁)
    (next : m₁.Without gone' m₂) : m.Without (fun e => gone e ∨ gone' e) m₂ where
  indexed := next.indexed
  queryCollection := next.queryCollection.trans first.queryCollection
  parent := next.parent.trans first.parent
  joins := next.joins.trans first.joins
  next := next.next.trans first.next
  removed j e here asked := by
    by_cases already : gone e
    · have dead := first.removed j e here already
      rw [next.others j fun e' here' => ?_, dead]
      rw [link, dead] at here'
      cases here'
    · have alive := first.others j fun e' here' asked' => by
        cases here.symm.trans here'
        exact already asked'
      refine next.removed j e ?_ (asked.resolve_left already)
      rw [link, alive]
      exact here
  others j other := by
    have alive := first.others j fun e here asked => other e here (.inl asked)
    rw [next.others j fun e here asked => ?_, alive]
    rw [link, alive] at here
    exact other e here (.inr asked)

def At (t : ℕ) (e : ℕ × ℕ) : Prop := e.2 = t ∨ e.1 = t

theorem registeredRemoved (emptied : Bool) (indexed : m.Indexed) (t : ℕ) :
    let removed := gqbQueryObject.removeAll emptied (·.registeredCollection t)
      (gqbQueryObject.unregisterJoin · t · true) m
    (emptied = true ∨ (∀ j e, m.link j = some e → ¬ e.2 = t) →
      ∃ m', removed = some m' ∧ m.Without (·.2 = t) m') ∧
    (emptied = false → (∃ j e, m.link j = some e ∧ e.2 = t) → removed = none) := by
  refine removeAll_eq emptied (fun m indexed => indexed.registered t) ?_ ?_ indexed
  · rintro m j ⟨s, d⟩ indexed here rfl
    exact unregisterJoin_eq indexed here
  · rintro m j ⟨s, d⟩ items rfl there
    simp [unlinked, Model.registered, there]

theorem ownRemoved (emptied : Bool) (indexed : m.Indexed) (t : ℕ) :
    let removed := gqbQueryObject.removeAll emptied (·.joinsCollection t)
      (gqbQueryObject.removeJoin · t · true) m
    (emptied = true ∨ (∀ j e, m.link j = some e → ¬ e.1 = t) →
      ∃ m', removed = some m' ∧ m.Without (·.1 = t) m') ∧
    (emptied = false → (∃ j e, m.link j = some e ∧ e.1 = t) → removed = none) := by
  refine removeAll_eq emptied (fun m indexed => indexed.own t) ?_ ?_ indexed
  · rintro m j ⟨s, d⟩ indexed here rfl
    exact removeJoin_eq indexed here
  · rintro m j ⟨s, d⟩ items rfl there
    simp [unlinked, Model.own, there]

theorem delete_eq {emptied : Bool} (indexed : m.Indexed) {t : ℕ} (there : (m.parent t).isSome) :
    (emptied = true ∨ (∀ j e, m.link j = some e → ¬ At t e) →
      ∃ m', gqbQueryObject.delete emptied m t = some { m' with parent := Function.update m.parent t none } ∧
        m.Without (At t) m') ∧
    (emptied = false → (∃ j e, m.link j = some e ∧ At t e) → gqbQueryObject.delete emptied m t = none) := by
  obtain ⟨parent, made⟩ := Option.isSome_iff_exists.mp there
  constructor
  · intro able
    obtain ⟨m₁, done₁, without₁⟩ := (registeredRemoved emptied indexed t).1 (able.imp id fun none j e here asked =>
      none j e here (.inl asked))
    have able₁ : emptied = true ∨ ∀ j e, m₁.link j = some e → ¬ e.1 = t := by
      refine able.imp id fun none j e here asked => ?_
      have same := without₁.others j fun e here asked => none j e here (.inl asked)
      rw [link, same] at here
      exact none j e here (.inr asked)
    obtain ⟨m₂, done₂, without₂⟩ := (ownRemoved emptied without₁.indexed t).1 able₁
    have without := without₁.trans without₂
    refine ⟨m₂, ?_, without⟩
    simp [gqbQueryObject.delete, made, done₁, done₂, without.parent]
  · rintro no ⟨j, e, here, asked⟩
    by_cases arriving : ∃ j e, m.link j = some e ∧ e.2 = t
    · simp [gqbQueryObject.delete, made, (registeredRemoved emptied indexed t).2 no arriving]
    · have none : ∀ j e, m.link j = some e → ¬ e.2 = t := fun j e here asked => arriving ⟨j, e, here, asked⟩
      obtain ⟨m₁, done₁, without₁⟩ := (registeredRemoved emptied indexed t).1 (.inr none)
      have leaving : ∃ j e, m₁.link j = some e ∧ e.1 = t := by
        refine ⟨j, e, ?_, asked.resolve_left (none j e here)⟩
        rw [link, without₁.others j (none j)]
        exact here
      simp [gqbQueryObject.delete, made, done₁, (ownRemoved emptied without₁.indexed t).2 no leaving]

end Model
end PgAdmin.gqbJoins
