import PgAdmin.QueryThread
import Mathlib.Order.BooleanAlgebra.Set

/-! Who owns the results and the buffers of COPY data when a query has been run. -/
namespace PgAdmin.pgQueryThread
open Handles (Op Live Proper)

/- Every result is cleared once or belongs to the data set, every buffer is freed once, and no result is used after
it was cleared. -/
structure Owned (r : Returned) : Prop where
  once : ∀ id, .got id ∈ r.state.results →
    r.state.results.count (.clear id) = 1 ∧ r.dataSet.map Held.id ≠ some id ∨
      r.state.results.count (.clear id) = 0 ∧ r.dataSet.map Held.id = some id
  freed : ∀ buf, .got buf ∈ r.state.buffers → r.state.buffers.count (.clear buf) = 1
  unused : ∀ before id after, r.state.results = before ++ .clear id :: after → ∀ op ∈ after, op.handle ≠ id

def State.held (st : State) : Set ℕ :=
  {id | st.result.map Held.id = some id ∨ st.lastResult.map Held.id = some id}

/- Of the results that were not cleared, some are held by the variables, and the others are lost. -/
structure Holds (st : State) (lost : Set ℕ) : Prop where
  proper : Proper st.results
  fresh : ∀ id, .got id ∈ st.results → id < st.obtained
  live : ∀ id, Live st.results id ↔ id ∈ st.held ∪ lost
  apart : ∀ id, st.result.map Held.id = some id → st.lastResult.map Held.id ≠ some id
  notLost : ∀ id ∈ st.held, id ∉ lost

namespace Holds
variable {st : State} {lost : Set ℕ}

theorem below (holds : Holds st lost) {id : ℕ} (inside : id ∈ st.held ∪ lost) : id < st.obtained :=
  holds.fresh id ((holds.live id).mpr inside).1

theorem got (holds : Holds st lost) : Holds st.got (insert st.obtained lost) := by
  have new : Op.got st.obtained ∉ st.results := fun old => Nat.lt_irrefl _ (holds.fresh _ old)
  refine ⟨holds.proper.got new, fun id member => ?_, fun id => ?_, holds.apart, fun id held => ?_⟩
  · rcases List.mem_append.mp member with earlier | last
    · exact Nat.lt_succ_of_lt (holds.fresh id earlier)
    · cases List.mem_singleton.mp last
      exact Nat.lt_succ_self _
  · rw [State.got, Handles.liveGot holds.proper new, holds.live, Set.union_insert]
    exact Iff.rfl
  · rintro (rfl | inside)
    · exact Nat.lt_irrefl _ (holds.below (.inl held))
    · exact holds.notLost id held inside

theorem reads (holds : Holds st lost) {h : Held} (inside : h.id ∈ st.held ∪ lost) : Holds (st.reads h) lost := by
  refine ⟨holds.proper.read ((holds.live _).mpr inside), fun id member => ?_, fun id => ?_, holds.apart,
    holds.notLost⟩
  · exact holds.fresh id (by simpa [State.reads] using member)
  · rw [State.reads, Handles.liveRead, holds.live]
    exact Iff.rfl

theorem clearedFresh (holds : Holds st lost) (h : Held) (id : ℕ) (member : .got id ∈ (st.clears h).results) :
    id < st.obtained := holds.fresh id (by simpa [State.clears] using member)

theorem clears (holds : Holds st lost) {h : Held} (inside : h.id ∈ lost) : Holds (st.clears h) (lost \ {h.id}) := by
  refine ⟨holds.proper.clear ((holds.live _).mpr (.inr inside)), holds.clearedFresh h, fun id => ?_, holds.apart,
    fun id held other => holds.notLost id held other.1⟩
  rw [State.clears, Handles.liveClear, holds.live]
  constructor
  · rintro ⟨other, held | lost⟩
    · exact .inl held
    · exact .inr ⟨lost, other⟩
  · rintro (held | ⟨lost, other⟩)
    · exact ⟨fun same => holds.notLost id held (same ▸ inside), .inl held⟩
    · exact ⟨other, .inr lost⟩

theorem clearResult (holds : Holds st lost) : Holds st.clearResult lost := by
  unfold State.clearResult
  split
  case h_1 => exact holds
  case h_2 h here =>
    have result : st.result.map Held.id = some h.id := congrArg (Option.map Held.id) here
    refine ⟨holds.proper.clear ((holds.live _).mpr (.inl (.inl result))), holds.clearedFresh h, fun id => ?_,
      fun id none => (by cases none), fun id held => ?_⟩
    · rw [State.clears, Handles.liveClear, holds.live]
      constructor
      · rintro ⟨other, (same | last) | lost⟩
        · exact absurd (Option.some.inj (result.symm.trans same)).symm other
        · exact .inl (.inr last)
        · exact .inr lost
      · rintro ((none | last) | lost)
        · cases none
        · exact ⟨fun same => holds.apart h.id result (same ▸ last), .inl (.inr last)⟩
        · exact ⟨fun same => holds.notLost h.id (.inl result) (same ▸ lost), .inr lost⟩
    · rcases held with none | last
      · cases none
      · exact holds.notLost id (.inr last)

theorem clearLast (holds : Holds st lost) : Holds st.clearLast lost := by
  unfold State.clearLast
  split
  case h_1 => exact holds
  case h_2 h here =>
    have last : st.lastResult.map Held.id = some h.id := congrArg (Option.map Held.id) here
    refine ⟨holds.proper.clear ((holds.live _).mpr (.inl (.inr last))), holds.clearedFresh h, fun id => ?_,
      fun id _ none => (by cases none), fun id held => ?_⟩
    · rw [State.clears, Handles.liveClear, holds.live]
      constructor
      · rintro ⟨other, (result | same) | lost⟩
        · exact .inl (.inl result)
        · exact absurd (Option.some.inj (last.symm.trans same)).symm other
        · exact .inr lost
      · rintro ((result | none) | lost)
        · exact ⟨fun same => holds.apart h.id (same ▸ result) last, .inl (.inl result)⟩
        · cases none
        · exact ⟨fun same => holds.notLost h.id (.inr last) (same ▸ lost), .inr lost⟩
    · rcases held with result | none
      · exact holds.notLost id (.inl result)
      · cases none

theorem setLast (holds : Holds st lost) (empty : st.lastResult = none) {h : Held} (inside : h.id ∈ lost) :
    Holds { st with lastResult := some h } (lost \ {h.id}) := by
  refine ⟨holds.proper, holds.fresh, fun id => ?_, fun id result same => ?_, fun id held => ?_⟩
  · rw [holds.live]
    constructor
    · rintro ((result | last) | lost)
      · exact .inl (.inl result)
      · rw [empty] at last
        cases last
      · by_cases same : id = h.id
        · exact .inl (.inr (congrArg some same.symm))
        · exact .inr ⟨lost, same⟩
    · rintro ((result | same) | lost)
      · exact .inl (.inl result)
      · exact .inr (Option.some.inj same ▸ inside)
      · exact .inr lost.1
  · exact holds.notLost id (.inl result) (Option.some.inj same ▸ inside)
  · rcases held with result | same
    · exact fun other => holds.notLost id (.inl result) other.1
    · exact fun other => other.2 (Option.some.inj same).symm

theorem setResult (holds : Holds st lost) {h : Held} (inside : h.id ∈ lost) :
    Holds { st with result := some h } (lost \ {h.id} ∪ {id | st.result.map Held.id = some id}) := by
  refine ⟨holds.proper, holds.fresh, fun id => ?_, fun id same last => ?_, fun id held => ?_⟩
  · rw [holds.live]
    constructor
    · rintro ((result | last) | lost)
      · exact .inr (.inr result)
      · exact .inl (.inr last)
      · by_cases same : id = h.id
        · exact .inl (.inl (congrArg some same.symm))
        · exact .inr (.inl ⟨lost, same⟩)
    · rintro ((same | last) | (lost | result))
      · exact .inr (Option.some.inj same ▸ inside)
      · exact .inl (.inr last)
      · exact .inr lost.1
      · exact .inl (.inl result)
  · exact holds.notLost id (.inr last) (Option.some.inj same ▸ inside)
  · rcases held with same | last
    · rintro (other | result)
      · exact other.2 (Option.some.inj same).symm
      · exact holds.notLost id (.inl result) (Option.some.inj same ▸ inside)
    · rintro (other | result)
      · exact holds.notLost id (.inr last) other.1
      · exact holds.apart id result last

end Holds

/- The results that are neither cleared nor in the data set at the end are lost. -/
structure Ends (r : Returned) (lost : Set ℕ) : Prop where
  proper : Proper r.state.results
  live : ∀ id, Live r.state.results id ↔ r.dataSet.map Held.id = some id ∨ id ∈ lost
  notLost : ∀ id, r.dataSet.map Held.id = some id → id ∉ lost

theorem Ends.owned {r : Returned} {lost : Set ℕ} (ends : Ends r lost) :
    Owned r ↔ lost = ∅ ∧ ∀ buf, .got buf ∈ r.state.buffers → r.state.buffers.count (.clear buf) = 1 := by
  have settled := ends.proper.settled fun id owner => (ends.live id).mpr (.inl owner)
  constructor
  · intro owned
    refine ⟨Set.eq_empty_iff_forall_notMem.mpr fun id inside => ?_, owned.freed⟩
    exact ends.notLost id (settled.mp owned.once id ((ends.live id).mpr (.inr inside))) inside
  · rintro ⟨rfl, freed⟩
    refine ⟨settled.mpr fun id live => ?_, freed, fun before id after split => ends.proper.after split⟩
    exact ((ends.live id).mp live).resolve_right fun none => none

section Ends
variable {eventOnCancellation : Bool} {resultToRetrieve : ℤ} {st : State} {lost : Set ℕ}

theorem endsHeld (holds : Holds st lost) {r : Returned} (results : r.state.results = st.results)
    (none_ : r.dataSet = none) : Ends r (st.held ∪ lost) := by
  refine ⟨results ▸ holds.proper, fun id => ?_, fun id owner => ?_⟩
  · rw [results, none_, holds.live]
    simp
  · rw [none_] at owner
    cases owner

theorem endsOwner (holds : Holds st lost) {h : Held} (inside : h.id ∈ st.held) {r : Returned}
    (results : r.state.results = st.results) (owner : r.dataSet = some h) : Ends r (st.held \ {h.id} ∪ lost) := by
  refine ⟨results ▸ holds.proper, fun id => ?_, fun id same => ?_⟩
  · rw [results, owner, holds.live]
    constructor
    · rintro (held | lost)
      · by_cases same : id = h.id
        · exact .inl (congrArg some same.symm)
        · exact .inr (.inl ⟨held, same⟩)
      · exact .inr (.inr lost)
    · rintro (same | held | lost)
      · exact .inl (Option.some.inj same ▸ inside)
      · exact .inl held.1
      · exact .inr lost
  · rw [owner] at same
    cases Option.some.inj same
    rintro (other | lost)
    · exact other.2 rfl
    · exact holds.notLost _ inside lost

theorem endsCleared (holds : Holds st lost) {h : Held} (inside : h.id ∈ st.held) {r : Returned}
    (results : r.state.results = st.results ++ [.clear h.id]) (none_ : r.dataSet = none) :
    Ends r (st.held \ {h.id} ∪ lost) := by
  refine ⟨results ▸ holds.proper.clear ((holds.live _).mpr (.inl inside)), fun id => ?_, fun id owner => ?_⟩
  · rw [results, none_, Handles.liveClear, holds.live]
    constructor
    · rintro ⟨other, held | lost⟩
      · exact .inr (.inl ⟨held, other⟩)
      · exact .inr (.inr lost)
    · rintro (owner | held | lost)
      · cases owner
      · exact ⟨held.2, .inl held.1⟩
      · exact ⟨fun same => holds.notLost _ inside (same ▸ lost), .inr lost⟩
  · rw [none_] at owner
    cases owner

def State.last (st : State) : Set ℕ := {id | st.lastResult.map Held.id = some id}

theorem clearResultHeld (st : State) : st.clearResult.held = st.last := by
  ext id
  unfold State.clearResult State.held State.last
  split
  case h_1 none_ => simp [none_]
  case h_2 h here => simp [State.clears]

theorem clearLastHeld (st : State) : st.clearLast.held = {id | st.result.map Held.id = some id} := by
  ext id
  unfold State.clearLast State.held
  split
  case h_1 none_ => simp [none_]
  case h_2 h here => simp [State.clears]

/- What is left when the last PQgetResult has answered NULL. -/
def State.left (cancelledAtEnd : Bool) (st : State) : Set ℕ :=
  if cancelledAtEnd then st.last
  else match st.result.or st.lastResult with
    | none => ∅
    | some h => if h.res.status = .tuplesOk ∨ h.res.status.isError then st.held \ {h.id} else st.held

theorem orHeld {h : Held} (here : st.result.or st.lastResult = some h) : h.id ∈ st.held := by
  rcases Option.or_eq_some_iff.mp here with result | ⟨-, last⟩
  · exact .inl (by rw [result]; rfl)
  · exact .inr (by rw [last]; rfl)

theorem finishEnds (holds : Holds st lost) (cancelledAtEnd : Bool) :
    Ends (finish eventOnCancellation cancelledAtEnd st) (st.left cancelledAtEnd ∪ lost) := by
  unfold finish State.left
  cases cancelledAtEnd with
  | true =>
    rw [if_pos rfl, if_pos rfl, ← clearResultHeld]
    exact @endsHeld _ _ holds.clearResult (cancelledReturn eventOnCancellation st.clearResult) rfl rfl
  | false =>
    rw [if_neg Bool.false_ne_true, if_neg Bool.false_ne_true]
    cases here : st.result.or st.lastResult with
    | none =>
      have empty : st.held = ∅ := by
        obtain ⟨result, last⟩ := Option.or_eq_none_iff.mp here
        simp [State.held, result, last]
      dsimp only
      rw [← empty]
      exact @endsHeld _ _ holds (RaiseEvent _ _) rfl rfl
    | some h =>
      have inside := orHeld here
      have once : Holds (st.reads h) lost := holds.reads (.inl inside)
      have twice : Holds ((st.reads h).reads h) lost := once.reads (.inl inside)
      have thrice : Holds (((st.reads h).reads h).reads h) lost := twice.reads (.inl inside)
      dsimp only
      by_cases tuples : h.res.status = .tuplesOk
      case pos =>
        rw [if_pos tuples, if_pos (.inl tuples)]
        exact endsOwner twice inside rfl rfl
      case neg =>
        rw [if_neg tuples]
        by_cases command : h.res.status = .commandOk
        case pos =>
          have noError : ¬(h.res.status = .tuplesOk ∨ h.res.status.isError = true) := by
            rw [command]
            decide
          rw [if_pos command, if_neg noError]
          exact endsHeld thrice rfl rfl
        case neg =>
          rw [if_neg command]
          by_cases error : h.res.status.isError = true
          case pos =>
            rw [if_pos error, if_pos (.inr error)]
            exact endsCleared twice inside rfl rfl
          case neg =>
            rw [if_neg error, if_neg (not_or.mpr ⟨tuples, error⟩)]
            exact endsHeld twice rfl rfl

theorem errorLeft {h : Held} (holds : Holds st lost) (result : st.result = some h)
    (error : h.res.status.isError = true) (cancelledAtEnd : Bool) : st.left cancelledAtEnd = st.last := by
  unfold State.left
  split
  case isTrue => rfl
  case isFalse =>
    rw [result, Option.some_or]
    dsimp only
    rw [if_pos (.inr error)]
    have own : st.result.map Held.id = some h.id := congrArg (Option.map Held.id) result
    ext id
    constructor
    · rintro ⟨same | last, other⟩
      · exact absurd (Option.some.inj (own.symm.trans same)).symm other
      · exact last
    · exact fun last => ⟨.inr last, fun same => holds.apart h.id own (same ▸ last)⟩

theorem drainEnds {h : Held} (error : h.res.status.isError = true) (cancelledAtEnd : Bool) (ds : List Drain)
    (holds : Holds st lost) (result : st.result = some h) {r : Returned}
    (ok : drain eventOnCancellation cancelledAtEnd ds st = .returned r) : Ends r (st.last ∪ lost) := by
  induction ds generalizing st with
  | nil => cases ok
  | cons d ds ih =>
    have finished := @finishEnds eventOnCancellation _ _ holds cancelledAtEnd
    rw [errorLeft holds result error] at finished
    unfold drain at ok
    split_ifs at ok
    · cases ok
      rw [← clearResultHeld]
      exact endsHeld holds.clearResult rfl rfl
    · cases ok
      exact finished
    · split at ok
      case h_1 =>
        cases ok
        exact finished
      case h_2 res _ =>
        have cleared := holds.got.clears (show (st.handle res).id ∈ insert st.obtained lost from .inl rfl)
        have back : insert st.obtained lost \ {(st.handle res).id} = lost :=
          Set.insert_sdiff_self_of_notMem fun inside => Nat.lt_irrefl _ (holds.below (.inr inside))
        rw [back] at cleared
        exact @ih (st.got.clears (st.handle res)) cleared result ok

theorem copyRun (holds : Holds st lost) (cs : List Copied) :
    (∀ st', copyOut eventOnCancellation cs st = .again st' →
      Holds st' lost ∧ st'.result = st.result ∧ st'.resultsRetrieved = st.resultsRetrieved) ∧
      ∀ r, copyOut eventOnCancellation cs st = .returned r → ∃ more, Ends r more ∧ lost ⊆ more := by
  induction cs generalizing st with
  | nil => exact ⟨fun _ none => (by cases none), fun _ none => (by cases none)⟩
  | cons c cs ih =>
    have same : Holds (if 0 < c.rc then st.gotCopy else st) lost ∧
        (if 0 < c.rc then st.gotCopy else st).result = st.result ∧
        (if 0 < c.rc then st.gotCopy else st).resultsRetrieved = st.resultsRetrieved := by
      split
      · exact ⟨⟨holds.proper, holds.fresh, holds.live, holds.apart, holds.notLost⟩, rfl, rfl⟩
      · exact ⟨holds, rfl, rfl⟩
    unfold copyOut
    dsimp only
    generalize (if 0 < c.rc then st.gotCopy else st) = next at same ⊢
    obtain ⟨same, result, retrieved⟩ := same
    have freed : Holds (if 0 < c.rc then next.freeCopy st.copied else next) lost ∧
        (if 0 < c.rc then next.freeCopy st.copied else next).result = st.result ∧
        (if 0 < c.rc then next.freeCopy st.copied else next).resultsRetrieved = st.resultsRetrieved := by
      split
      · exact ⟨⟨same.proper, same.fresh, same.live, same.apart, same.notLost⟩, result, retrieved⟩
      · exact ⟨same, result, retrieved⟩
    generalize (if 0 < c.rc then next.freeCopy st.copied else next) = after at freed ⊢
    obtain ⟨freed, afterResult, afterRetrieved⟩ := freed
    split_ifs
    · exact ⟨fun _ ok => (by cases ok; exact ⟨holds, rfl, rfl⟩), fun _ none => (by cases none)⟩
    · obtain ⟨goesOn, ends⟩ := @ih { next with connExecutionCancelled := true }
        ⟨same.proper, same.fresh, same.live, same.apart, same.notLost⟩
      refine ⟨fun st' ok => ?_, ends⟩
      obtain ⟨holds, sameResult, sameRetrieved⟩ := goesOn st' ok
      exact ⟨holds, sameResult.trans result, sameRetrieved.trans retrieved⟩
    · refine ⟨fun _ none => (by cases none), fun r ok => ?_⟩
      cases ok
      exact ⟨_, endsHeld freed.clearResult rfl rfl, Set.subset_union_right⟩
    · refine ⟨fun _ none => (by cases none), fun r ok => ?_⟩
      cases ok
      exact ⟨_, endsHeld freed rfl rfl, Set.subset_union_right⟩
    · obtain ⟨goesOn, ends⟩ := ih freed
      refine ⟨fun st' ok => ?_, ends⟩
      obtain ⟨holds, sameResult, sameRetrieved⟩ := goesOn st' ok
      exact ⟨holds, sameResult.trans afterResult, sameRetrieved.trans afterRetrieved⟩

end Ends

@[simp] theorem clearLastResult (st : State) : st.clearLast.result = st.result := by
  unfold State.clearLast
  split <;> rfl

@[simp] theorem clearLastLast (st : State) : st.clearLast.lastResult = none := by
  unfold State.clearLast
  split
  case h_1 none_ => exact none_
  case h_2 => rfl

@[simp] theorem clearLastRetrieved (st : State) : st.clearLast.resultsRetrieved = st.resultsRetrieved := by
  unfold State.clearLast
  split <;> rfl

section Turns
variable {eventOnCancellation : Bool} {resultToRetrieve : ℤ} {st : State} {lost : Set ℕ}

structure Runs (resultToRetrieve : ℤ) (st : State) (lost : Set ℕ) : Prop where
  holds : Holds st lost
  asked : st.result.isSome → resultToRetrieve ≤ st.resultsRetrieved

theorem topRuns (runs : Runs resultToRetrieve st lost) (t : Turn) : Runs resultToRetrieve (top t st) lost := by
  unfold top
  split
  case isTrue =>
    have same : Holds { st with connExecutionCancelled := true, rc := PGQ_EXECUTION_CANCELLED } lost :=
      ⟨runs.holds.proper, runs.holds.fresh, runs.holds.live, runs.holds.apart, runs.holds.notLost⟩
    refine ⟨same.clearLast, fun held => ?_⟩
    rw [clearLastRetrieved]
    exact runs.asked (by rwa [clearLastResult] at held)
  case isFalse => exact runs

theorem discardHolds (holds : Holds st lost) (t : Turn) : Holds (discard t st) lost := by
  unfold discard
  split
  case h_1 => exact holds
  case h_2 last here =>
    have read := holds.reads (.inl (.inr (congrArg (Option.map Held.id) here)))
    split
    · exact holds.clearLast
    · exact read.clearLast

@[simp] theorem discardLast (t : Turn) (st : State) : (discard t st).lastResult = none := by
  unfold discard
  split
  case h_1 none_ => exact none_
  case h_2 => exact clearLastLast _

@[simp] theorem discardResult (t : Turn) (st : State) : (discard t st).result = st.result := by
  unfold discard
  split
  case h_1 => rfl
  case h_2 => rw [clearLastResult]; split <;> rfl

@[simp] theorem discardRetrieved (t : Turn) (st : State) :
    (discard t st).resultsRetrieved = st.resultsRetrieved := by
  unfold discard
  split
  case h_1 => rfl
  case h_2 => rw [clearLastRetrieved]; split <;> rfl

theorem keepRuns (runs : Runs resultToRetrieve st lost) (t : Turn) {h : Held} (inside : h.id ∈ lost) :
    Runs resultToRetrieve (keep resultToRetrieve t h st) (lost \ {h.id}) := by
  unfold keep
  dsimp only
  split
  case isTrue asked =>
    have now : ((st.resultsRetrieved + 1 : ℕ) : ℤ) = resultToRetrieve := by
      simpa using (Bool.and_eq_true_iff.mp asked).2
    have empty : st.result = none := by
      by_contra held
      have before := runs.asked (Option.isSome_iff_ne_none.mpr held)
      omega
    have set := (runs.holds.reads (.inr inside)).setResult inside
    rw [show (st.reads h).result = none from empty] at set
    have same : lost \ {h.id} ∪ {id | (none : Option Held).map Held.id = some id} = lost \ {h.id} := by simp
    rw [same] at set
    exact ⟨⟨set.proper, set.fresh, set.live, set.apart, set.notLost⟩, fun _ => now.ge⟩
  case isFalse =>
    have counted : Holds { st with resultsRetrieved := st.resultsRetrieved + 1 } lost :=
      ⟨runs.holds.proper, runs.holds.fresh, runs.holds.live, runs.holds.apart, runs.holds.notLost⟩
    refine ⟨(discardHolds counted t).setLast (discardLast t _) inside, fun held => ?_⟩
    have before := runs.asked (by simpa only [discardResult] using held)
    change resultToRetrieve ≤ ((discard t _).resultsRetrieved : ℤ)
    rw [discardRetrieved]
    dsimp only
    omega

def Turn.result (t : Turn) : Option PGresult := if t.consumed = 1 ∧ !t.busy then t.res else none

/- The turn leads to another one, or into the loop for COPY data. -/
def Turn.goesOn (t : Turn) : Bool :=
  t.consumed = 1 && (t.busy || match t.res with
    | none => false
    | some res => !res.status.isError)

/- What a turn that gets no COPY data does when another one follows. -/
def proceed (resultToRetrieve : ℤ) (t : Turn) (st : State) : State :=
  let st := { top t st with rc := 1 }
  match t.result with
  | none => st
  | some res =>
    let h := st.handle res
    let st := st.got.reads h
    keep resultToRetrieve t h (if res.status = .copyIn then { st with rc := Status.copyIn.code } else st)

theorem turnOn {t : Turn} (on : t.goesOn = true) (noCopy : ∀ res, t.result = some res → res.status ≠ .copyOut) :
    turn eventOnCancellation resultToRetrieve t st = .again (proceed resultToRetrieve t st) := by
  obtain ⟨consumed, more⟩ := Bool.and_eq_true_iff.mp on
  rw [decide_eq_true_eq] at consumed
  unfold turn proceed
  unfold Turn.result at noCopy ⊢
  dsimp only
  rw [if_neg (not_not.mpr consumed)]
  cases busy : t.busy with
  | true => simp
  | false =>
    rw [busy, Bool.false_or] at more
    cases res : t.res with
    | none =>
      rw [res] at more
      cases more
    | some res' =>
      rw [res] at more
      have copy := noCopy res' (by simp [consumed, busy, res])
      have error : ¬res'.status.isError = true := by simpa using more
      simp only [consumed, Bool.not_false, and_self, if_true, Bool.false_eq_true, if_false, if_neg error, if_neg copy]

theorem proceedRuns (runs : Runs resultToRetrieve st lost) (t : Turn) :
    Runs resultToRetrieve (proceed resultToRetrieve t st) lost := by
  have top := topRuns runs t
  have begun : Runs resultToRetrieve { pgQueryThread.top t st with rc := 1 } lost :=
    ⟨⟨top.holds.proper, top.holds.fresh, top.holds.live, top.holds.apart, top.holds.notLost⟩, top.asked⟩
  unfold proceed
  dsimp only
  generalize { pgQueryThread.top t st with rc := 1 } = next at begun ⊢
  split
  case h_1 => exact begun
  case h_2 res _ =>
    have got := begun.holds.got.reads (show (next.handle res).id ∈ _ ∪ insert next.obtained lost from .inr (.inl rfl))
    have ready : Runs resultToRetrieve (if res.status = .copyIn then
        { next.got.reads (next.handle res) with rc := Status.copyIn.code } else next.got.reads (next.handle res))
        (insert next.obtained lost) := by
      split
      · exact ⟨⟨got.proper, got.fresh, got.live, got.apart, got.notLost⟩, begun.asked⟩
      · exact ⟨got, begun.asked⟩
    have kept := keepRuns ready t (show (next.handle res).id ∈ _ from .inl rfl)
    have back : insert next.obtained lost \ {(next.handle res).id} = lost :=
      Set.insert_sdiff_self_of_notMem fun inside => Nat.lt_irrefl _ (begun.holds.below (.inr inside))
    rwa [back] at kept

def Turn.Copies (t : Turn) : Prop := ∃ res, t.result = some res ∧ res.status = .copyOut

theorem copyTurn (runs : Runs resultToRetrieve st lost) {t : Turn} (copies : t.Copies) :
    (∀ st', turn eventOnCancellation resultToRetrieve t st = .again st' →
      ∃ more, Runs resultToRetrieve st' more ∧ more.Nonempty) ∧
    ∀ r, turn eventOnCancellation resultToRetrieve t st = .returned r → ∃ more, Ends r more ∧ more.Nonempty := by
  obtain ⟨res, got, status⟩ := copies
  unfold Turn.result at got
  split at got
  case isFalse => cases got
  case isTrue asked =>
    have top := topRuns runs t
    have begun : Runs resultToRetrieve { pgQueryThread.top t st with rc := 1 } lost :=
      ⟨⟨top.holds.proper, top.holds.fresh, top.holds.live, top.holds.apart, top.holds.notLost⟩, top.asked⟩
    have error : ¬res.status.isError = true := by
      rw [status]
      decide
    unfold turn
    dsimp only
    rw [if_neg (not_not.mpr asked.1), if_neg (by simpa using asked.2), got]
    dsimp only
    rw [if_neg error, if_pos status]
    generalize { pgQueryThread.top t st with rc := 1 } = next at begun ⊢
    have inHand := begun.holds.got.reads
      (show (next.handle res).id ∈ _ ∪ insert next.obtained lost from .inr (.inl rfl))
    have copying : Holds { next.got.reads (next.handle res) with rc := Status.copyOut.code }
        (insert next.obtained lost) := ⟨inHand.proper, inHand.fresh, inHand.live, inHand.apart, inHand.notLost⟩
    obtain ⟨goesOn, ends⟩ := @copyRun eventOnCancellation _ _ copying t.copy
    have some_ : (insert next.obtained lost).Nonempty := Set.insert_nonempty _ _
    cases run : copyOut eventOnCancellation t.copy
        { next.got.reads (next.handle res) with rc := Status.copyOut.code } with
    | waiting => exact ⟨fun _ none => (by cases none), fun _ none => (by cases none)⟩
    | returned r =>
      obtain ⟨more, ended, lostStays⟩ := ends r run
      refine ⟨fun _ none => (by cases none), fun r' same => ?_⟩
      cases same
      exact ⟨more, ended, some_.mono lostStays⟩
    | again after =>
      obtain ⟨holds, result, retrieved⟩ := goesOn after run
      dsimp only
      cases behind : t.afterCopy with
      | none =>
        refine ⟨fun _ none => (by cases none), fun r' same => ?_⟩
        cases same
        exact ⟨_, finishEnds holds _, some_.mono Set.subset_union_right⟩
      | some last =>
        refine ⟨fun st' same => ?_, fun _ none => (by cases none)⟩
        cases same
        have ready : Runs resultToRetrieve after.got (insert after.obtained (insert next.obtained lost)) :=
          ⟨holds.got, fun held => by
            have before := begun.asked (by rwa [show after.got.result = next.result from result] at held)
            rwa [show after.got.resultsRetrieved = next.resultsRetrieved from retrieved]⟩
        have kept := keepRuns ready t (show (after.handle last).id ∈ _ from .inl rfl)
        refine ⟨_, kept, next.obtained, .inr (.inl rfl), fun same => ?_⟩
        have below := holds.below (.inr (.inl rfl))
        exact Nat.lt_irrefl _ (lt_of_lt_of_eq below (Set.mem_singleton_iff.mp same).symm)

theorem drainEnding {cancelledAtEnd : Bool} (ds : List Drain) (st st' : State) :
    drain eventOnCancellation cancelledAtEnd ds st ≠ .again st' := by
  induction ds generalizing st with
  | nil => exact fun none => by cases none
  | cons d ds ih =>
    unfold drain
    split_ifs
    · exact fun none => by cases none
    · exact fun none => by cases none
    · split
      · exact fun none => by cases none
      · exact ih _

def Turn.loses (t : Turn) (st : State) : Set ℕ :=
  if t.consumed ≠ 1 then if t.cancelledOnFailure then {id | st.result.map Held.id = some id} else st.held
  else match t.res with
    | none => st.left t.cancelledAtEnd
    | some _ => st.held

theorem lastTurn (runs : Runs resultToRetrieve st lost) {t : Turn} (off : t.goesOn = false) :
    (∀ st', turn eventOnCancellation resultToRetrieve t st ≠ .again st') ∧
    ∀ r, turn eventOnCancellation resultToRetrieve t st = .returned r → Ends r (t.loses (top t st) ∪ lost) := by
  have top := (topRuns runs t).holds
  unfold Turn.goesOn at off
  unfold turn Turn.loses
  dsimp only
  generalize pgQueryThread.top t st = next at top ⊢
  by_cases consumed : t.consumed = 1
  case neg =>
    rw [if_pos consumed, if_pos consumed]
    split
    · refine ⟨fun _ none => (by cases none), fun r same => ?_⟩
      cases same
      rw [← clearLastHeld]
      exact endsHeld top.clearLast rfl rfl
    · refine ⟨fun _ none => (by cases none), fun r same => ?_⟩
      cases same
      exact endsHeld top rfl rfl
  case pos =>
    rw [decide_eq_true consumed, Bool.true_and, Bool.or_eq_false_iff] at off
    obtain ⟨idle, off⟩ := off
    rw [if_neg (not_not.mpr consumed), if_neg (not_not.mpr consumed), if_neg (by rw [idle]; decide)]
    have begun : Holds { next with rc := 1 } lost := ⟨top.proper, top.fresh, top.live, top.apart, top.notLost⟩
    cases answer : t.res with
    | none =>
      refine ⟨fun _ none => (by cases none), fun r same => ?_⟩
      cases same
      exact finishEnds begun _
    | some res =>
      rw [answer] at off
      have error : res.status.isError = true := by simpa using off
      dsimp only
      rw [if_pos error]
      refine ⟨fun st' => ?_, fun r ok => ?_⟩
      · exact drainEnding _ _ st'
      · have got := begun.got.reads
          (show (State.handle { next with rc := 1 } res).id ∈ _ ∪ insert next.obtained lost from .inr (.inl rfl))
        have stored := got.setResult (show (State.handle { next with rc := 1 } res).id ∈ _ from .inl rfl)
        have ended := drainEnds error _ _ stored rfl ok
        have back : insert next.obtained lost \ {(State.handle { next with rc := 1 } res).id} = lost :=
          Set.insert_sdiff_self_of_notMem fun inside => Nat.lt_irrefl _ (begun.below (.inr inside))
        rw [back, Set.union_comm lost, ← Set.union_assoc, Set.union_comm (State.last _)] at ended
        exact ended

theorem lossStays (turns : List Turn) (runs : Runs resultToRetrieve st lost)
    (some_ : lost.Nonempty ∨ ∃ t ∈ turns.takeWhile Turn.goesOn, t.Copies) {r : Returned}
    (ok : loop eventOnCancellation resultToRetrieve turns st = some r) : ¬Owned r := by
  induction turns generalizing st lost with
  | nil => cases ok
  | cons t turns ih =>
    unfold loop at ok
    by_cases copies : t.Copies
    case pos =>
      obtain ⟨goesOn, ends⟩ := @copyTurn eventOnCancellation _ _ _ runs _ copies
      cases run : turn eventOnCancellation resultToRetrieve t st with
      | waiting =>
        rw [run] at ok
        cases ok
      | returned r' =>
        rw [run] at ok
        cases ok
        obtain ⟨more, ended, lostThen⟩ := ends r run
        exact fun owned => lostThen.ne_empty (ended.owned.mp owned).1
      | again next =>
        rw [run] at ok
        obtain ⟨more, later, lostThen⟩ := goesOn next run
        exact ih later (.inl lostThen) ok
    case neg =>
      cases on : t.goesOn with
      | true =>
        rw [turnOn on fun res got status => copies ⟨res, got, status⟩] at ok
        refine ih (proceedRuns runs t) (some_.imp_right ?_) ok
        rintro ⟨u, inside, copying⟩
        rw [List.takeWhile_cons_of_pos on] at inside
        rcases List.mem_cons.mp inside with rfl | later
        · exact absurd copying copies
        · exact ⟨u, later, copying⟩
      | false =>
        have lost_ : lost.Nonempty := by
          refine some_.resolve_right ?_
          rintro ⟨u, inside, -⟩
          rw [List.takeWhile_cons_of_neg (by simp [on])] at inside
          cases inside
        obtain ⟨ending, ends⟩ := @lastTurn eventOnCancellation _ _ _ runs t on
        cases run : turn eventOnCancellation resultToRetrieve t st with
        | waiting =>
          rw [run] at ok
          cases ok
        | again next => exact absurd run (ending next)
        | returned r' =>
          rw [run] at ok
          cases ok
          have ended := ends r run
          exact fun owned => (lost_.mono Set.subset_union_right).ne_empty (ended.owned.mp owned).1

end Turns

end PgAdmin.pgQueryThread
