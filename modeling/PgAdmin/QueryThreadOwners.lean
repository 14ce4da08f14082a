import PgAdmin.QueryThreadResults
import Mathlib.Data.List.TakeWhile
import Mathlib.Tactic.Ring

/-! Which streams of results and moments of cancellation the query thread comes through without losing a result. -/
namespace PgAdmin.pgQueryThread
open Handles (Op Live Proper)

def arrived (done : List Turn) : List PGresult := done.filterMap Turn.result

def asked (resultToRetrieve : ℤ) (results : List PGresult) : Option PGresult :=
  if resultToRetrieve ≤ 0 then none else results[resultToRetrieve.toNat - 1]?

def others (resultToRetrieve : ℤ) (results : List PGresult) : List PGresult :=
  if resultToRetrieve ≤ 0 then results else results.eraseIdx (resultToRetrieve.toNat - 1)

def InTime (resultToRetrieve : ℤ) (done : List Turn) : Prop :=
  ∃ front t back, done = front ++ t :: back ∧ t.result.isSome ∧ (arrived front).length + 1 = resultToRetrieve ∧
    t.cancelledOnKeep = false

def Clears (resultToRetrieve : ℤ) (done : List Turn) (t : Turn) : Prop :=
  if t.consumed ≠ 1 then
    if t.cancelledOnFailure then ¬InTime resultToRetrieve done else arrived done = []
  else match t.res with
    | some _ => if t.cancelled then ¬InTime resultToRetrieve done else arrived done = []
    | none =>
      if t.cancelledAtEnd then t.cancelled = true ∨ others resultToRetrieve (arrived done) = []
      else match asked resultToRetrieve (arrived done), (others resultToRetrieve (arrived done)).getLast? with
        | none, none => True
        | some _, some _ => False
        | some res, none => res.status = .tuplesOk
        | none, some res => res.status = .tuplesOk

/- No COPY data comes, and the last turn has nothing to lose. -/
def Clean (resultToRetrieve : ℤ) (turns : List Turn) : Prop :=
  (∀ t ∈ turns.takeWhile Turn.goesOn, ¬t.Copies) ∧
    ∀ t ∈ (turns.dropWhile Turn.goesOn).head?, Clears resultToRetrieve (turns.takeWhile Turn.goesOn) t

section Results
variable (resultToRetrieve : ℤ) (results : List PGresult) (res : PGresult)

theorem askedSnoc : asked resultToRetrieve (results ++ [res]) =
    if (results.length : ℤ) + 1 = resultToRetrieve then some res else asked resultToRetrieve results := by
  unfold asked
  split_ifs with low now now
  · omega
  · rfl
  · have last : resultToRetrieve.toNat - 1 = results.length := by omega
    rw [last, List.getElem?_append_right le_rfl, Nat.sub_self]
    rfl
  · by_cases inside : resultToRetrieve.toNat - 1 < results.length
    · exact List.getElem?_append_left inside
    · rw [List.getElem?_eq_none (by simp; omega), List.getElem?_eq_none (by omega)]

theorem othersSnoc : others resultToRetrieve (results ++ [res]) =
    if (results.length : ℤ) + 1 = resultToRetrieve then others resultToRetrieve results
    else others resultToRetrieve results ++ [res] := by
  unfold others
  split_ifs with low now now
  · omega
  · rfl
  · have last : resultToRetrieve.toNat - 1 = results.length := by omega
    rw [last, List.eraseIdx_append_of_length_le le_rfl, Nat.sub_self, List.eraseIdx_of_length_le le_rfl]
    exact List.append_nil _
  · by_cases inside : resultToRetrieve.toNat - 1 < results.length
    · exact List.eraseIdx_append_of_lt_length inside _
    · rw [List.eraseIdx_of_length_le (by simp; omega), List.eraseIdx_of_length_le (by omega)]

theorem arrivedNone (resultToRetrieve : ℤ) (results : List PGresult) :
    asked resultToRetrieve results = none ∧ others resultToRetrieve results = [] ↔ results = [] := by
  constructor
  · rintro ⟨none_, empty⟩
    unfold asked others at *
    split_ifs at none_ empty
    · exact empty
    · have short := List.getElem?_eq_none_iff.mp none_
      rwa [List.eraseIdx_of_length_le short] at empty
  · rintro rfl
    unfold asked others
    split_ifs <;> exact ⟨rfl, rfl⟩

end Results

theorem inTimeSnoc (resultToRetrieve : ℤ) (done : List Turn) (t : Turn) : InTime resultToRetrieve (done ++ [t]) ↔
    InTime resultToRetrieve done ∨
      t.result.isSome ∧ (arrived done).length + 1 = resultToRetrieve ∧ t.cancelledOnKeep = false := by
  constructor
  · rintro ⟨front, u, back, split, here⟩
    rcases List.eq_nil_or_concat back with rfl | ⟨back, last, rfl⟩
    · obtain ⟨rfl, same⟩ := List.append_inj' split rfl
      cases List.singleton_inj.mp same
      exact .inr here
    · rw [List.concat_eq_append, ← List.cons_append, ← List.append_assoc] at split
      obtain ⟨rfl, -⟩ := List.append_inj' split rfl
      exact .inl ⟨front, u, back, rfl, here⟩
  · rintro (⟨front, u, back, rfl, here⟩ | here)
    · exact ⟨front, u, back ++ [t], by simp, here⟩
    · exact ⟨done, t, [], rfl, here⟩

section Tidy
variable {eventOnCancellation : Bool} {resultToRetrieve : ℤ} {done : List Turn} {st : State}

/- Nothing was lost, and without a cancellation the variables hold the result asked for and the last of the others. -/
structure Tidy (resultToRetrieve : ℤ) (done : List Turn) (st : State) : Prop where
  runs : Runs resultToRetrieve st ∅
  count : st.resultsRetrieved = (arrived done).length
  inTime : st.result.isSome ↔ InTime resultToRetrieve done
  calm : (∀ t ∈ done, t.cancelled = false ∧ t.cancelledOnKeep = false) →
    st.result.map Held.res = asked resultToRetrieve (arrived done) ∧
      st.lastResult.map Held.res = (others resultToRetrieve (arrived done)).getLast?
  rc : st.rc ≠ PGQ_EXECUTION_CANCELLED
  buffers : st.buffers = []

@[simp] theorem clearLastBuffers (st : State) : st.clearLast.buffers = st.buffers := by
  unfold State.clearLast
  split <;> rfl

@[simp] theorem clearLastRc (st : State) : st.clearLast.rc = st.rc := by
  unfold State.clearLast
  split <;> rfl

@[simp] theorem clearResultBuffers (st : State) : st.clearResult.buffers = st.buffers := by
  unfold State.clearResult
  split <;> rfl

@[simp] theorem discardBuffers (t : Turn) (st : State) : (discard t st).buffers = st.buffers := by
  unfold discard
  split
  case h_1 => rfl
  case h_2 => rw [clearLastBuffers]; split <;> rfl

@[simp] theorem discardRc (t : Turn) (st : State) : (discard t st).rc = st.rc := by
  unfold discard
  split
  case h_1 => rfl
  case h_2 => rw [clearLastRc]; split <;> rfl

theorem topSame (t : Turn) (st : State) : (top t st).result = st.result ∧
    (top t st).resultsRetrieved = st.resultsRetrieved ∧ (top t st).buffers = st.buffers := by
  unfold top
  split <;> simp

theorem topCalm {t : Turn} (calm : t.cancelled = false) (st : State) : top t st = st :=
  if_neg fun both => by rw [calm] at both; exact Bool.false_ne_true both.1

theorem topCleared {t : Turn} (cancelled : t.cancelled = true) (rc : st.rc ≠ PGQ_EXECUTION_CANCELLED) :
    (top t st).lastResult = none := by
  rw [top, if_pos ⟨cancelled, rc⟩]
  exact clearLastLast _

theorem keepFields (t : Turn) (h : Held) (st : State) :
    let taken := t.cancelledOnKeep = false ∧ (st.resultsRetrieved : ℤ) + 1 = resultToRetrieve
    (keep resultToRetrieve t h st).resultsRetrieved = st.resultsRetrieved + 1 ∧
      (keep resultToRetrieve t h st).rc = st.rc ∧ (keep resultToRetrieve t h st).buffers = st.buffers ∧
      (taken → (keep resultToRetrieve t h st).result = some h ∧
        (keep resultToRetrieve t h st).lastResult = st.lastResult) ∧
      (¬taken → (keep resultToRetrieve t h st).result = st.result ∧
        (keep resultToRetrieve t h st).lastResult = some h) := by
  intro taken
  have test : (!t.cancelledOnKeep && decide (((st.resultsRetrieved + 1 : ℕ) : ℤ) = resultToRetrieve)) = true ↔
      taken := by
    simp [taken]
  unfold keep
  dsimp only
  by_cases now : taken
  case pos =>
    rw [if_pos (test.mpr now)]
    exact ⟨rfl, rfl, rfl, fun _ => ⟨rfl, rfl⟩, fun not => absurd now not⟩
  case neg =>
    rw [if_neg fun is => now (test.mp is)]
    exact ⟨by simp, by simp, by simp, fun is => absurd is now, fun _ => ⟨by simp, rfl⟩⟩

theorem arrivedSnoc (done : List Turn) (t : Turn) : arrived (done ++ [t]) = arrived done ++ t.result.toList := by
  rw [arrived, List.filterMap_append]
  cases here : t.result <;> simp [arrived, here]

theorem tidyProceed (tidy : Tidy resultToRetrieve done st) (t : Turn) :
    Tidy resultToRetrieve (done ++ [t]) (proceed resultToRetrieve t st) := by
  have runs := proceedRuns tidy.runs t
  obtain ⟨topResult, topCount, topBuffers⟩ := topSame t st
  have calmTop : (∀ u ∈ done ++ [t], u.cancelled = false ∧ u.cancelledOnKeep = false) →
      (∀ u ∈ done, u.cancelled = false ∧ u.cancelledOnKeep = false) ∧ t.cancelledOnKeep = false ∧ top t st = st := by
    intro calm
    obtain ⟨before, here⟩ := List.forall_mem_append.mp calm
    obtain ⟨now, keeps⟩ := here t List.mem_cons_self
    exact ⟨before, keeps, topCalm now st⟩
  cases here : t.result with
  | none =>
    have next : proceed resultToRetrieve t st = { top t st with rc := 1 } := by
      unfold proceed
      rw [here]
    have none_ : arrived (done ++ [t]) = arrived done := by rw [arrivedSnoc, here]; exact List.append_nil _
    rw [next] at runs ⊢
    refine ⟨runs, ?_, ?_, fun calm => ?_, show (1 : ℤ) ≠ _ by decide, topBuffers.trans tidy.buffers⟩
    · rw [none_]
      exact topCount.trans tidy.count
    · rw [inTimeSnoc, here]
      simp only [Option.isSome_none, Bool.false_eq_true, false_and, or_false]
      exact (Iff.of_eq (congrArg (fun o => Option.isSome o = true) topResult)).trans tidy.inTime
    · obtain ⟨before, -, same⟩ := calmTop calm
      rw [none_, same]
      exact tidy.calm before
  | some res =>
    obtain ⟨h, st', same, own, result, last, count, buffers, rc⟩ : ∃ h st', proceed resultToRetrieve t st =
        keep resultToRetrieve t h st' ∧ h.res = res ∧ st'.result = st.result ∧
          st'.lastResult = (top t st).lastResult ∧ st'.resultsRetrieved = st.resultsRetrieved ∧
          st'.buffers = st.buffers ∧ st'.rc ≠ PGQ_EXECUTION_CANCELLED := by
      unfold proceed
      rw [here]
      refine ⟨_, _, rfl, rfl, ?_⟩
      split
      · exact ⟨topResult, rfl, topCount, topBuffers, show Status.copyIn.code ≠ _ by decide⟩
      · exact ⟨topResult, rfl, topCount, topBuffers, show (1 : ℤ) ≠ _ by decide⟩
    obtain ⟨keptCount, keptRc, keptBuffers, taken, other⟩ := @keepFields resultToRetrieve t h st'
    have more : arrived (done ++ [t]) = arrived done ++ [res] := by rw [arrivedSnoc, here]; rfl
    rw [same] at runs ⊢
    rw [count, tidy.count] at taken other keptCount
    refine ⟨runs, ?_, ?_, fun calm => ?_, ?_, ?_⟩
    · rw [keptCount, more, List.length_append]
      rfl
    · rw [inTimeSnoc, here]
      simp only [Option.isSome_some, true_and]
      by_cases now : t.cancelledOnKeep = false ∧ ((arrived done).length : ℤ) + 1 = resultToRetrieve
      case pos =>
        rw [(taken now).1]
        exact ⟨fun _ => .inr ⟨now.2, now.1⟩, fun _ => rfl⟩
      case neg =>
        rw [(other now).1, result, tidy.inTime]
        exact ⟨.inl, fun either => either.elim id fun here => absurd ⟨here.2, here.1⟩ now⟩
    · obtain ⟨before, keeps, unchanged⟩ := calmTop calm
      obtain ⟨held, lastHeld⟩ := tidy.calm before
      rw [more, askedSnoc, othersSnoc]
      by_cases now : ((arrived done).length : ℤ) + 1 = resultToRetrieve
      case pos =>
        obtain ⟨stored, left⟩ := taken ⟨keeps, now⟩
        rw [if_pos now, if_pos now, stored, left, last, unchanged, ← own]
        exact ⟨rfl, lastHeld⟩
      case neg =>
        obtain ⟨unstored, replaced⟩ := other fun both => now both.2
        rw [if_neg now, if_neg now, unstored, replaced, result, List.getLast?_concat, ← own]
        exact ⟨held, rfl⟩
    · rw [keptRc]
      exact rc
    · rw [keptBuffers, buffers, tidy.buffers]

theorem lastFlags {t : Turn} (stays : StaysCancelled (done ++ [t])) :
    (t.cancelled = true → t.cancelledOnFailure = true ∧ t.cancelledAtEnd = true) ∧
      (t.cancelled = false → ∀ u ∈ done, u.cancelled = false ∧ u.cancelledOnKeep = false) := by
  rw [StaysCancelled, List.flatMap_append, List.pairwise_append] at stays
  obtain ⟨-, own, across⟩ := stays
  rw [List.flatMap_singleton, Turn.flags, List.cons_append, List.cons_append, List.pairwise_cons] at own
  constructor
  · exact fun cancelled => ⟨own.1 _ (by simp) cancelled, own.1 _ (by simp) cancelled⟩
  · intro not u member
    have later (flag : Bool) (inside : flag ∈ u.flags) : flag = false := by
      by_contra on
      have now := across flag (List.mem_flatMap.mpr ⟨u, member, inside⟩) t.cancelled (by simp [Turn.flags])
        (Bool.of_not_eq_false on)
      rw [not] at now
      cases now
    exact ⟨later _ (by simp [Turn.flags]), later _ (by simp [Turn.flags])⟩

theorem idsEmpty (h : Option Held) : {id | h.map Held.id = some id} = (∅ : Set ℕ) ↔ h = none := by
  cases h with
  | none => simp
  | some h => exact ⟨fun empty => absurd (Set.eq_empty_iff_forall_notMem.mp empty h.id) (not_not.mpr rfl),
      fun none => by cases none⟩

theorem heldEmpty (st : State) : st.held = ∅ ↔ st.result = none ∧ st.lastResult = none := by
  have parts : st.held = {id | st.result.map Held.id = some id} ∪ {id | st.lastResult.map Held.id = some id} := rfl
  rw [parts, Set.union_empty_iff, idsEmpty, idsEmpty]

theorem leftEmpty {lost : Set ℕ} (holds : Holds st lost) {h : Held} (here : st.result.or st.lastResult = some h) :
    st.held \ {h.id} = ∅ ↔ st.result = none ∨ st.lastResult = none := by
  cases result : st.result with
  | none =>
    rw [result, Option.none_or] at here
    simp [State.held, result, here]
  | some kept =>
    rw [result, Option.some_or] at here
    cases Option.some.inj here
    cases last : st.lastResult with
    | none => simp [State.held, result, last]
    | some other =>
      have own : other.id ∈ st.held := .inr (congrArg (Option.map Held.id) last)
      have apart : other.id ≠ h.id := fun same =>
        holds.apart h.id (congrArg (Option.map Held.id) result) (by rw [last, ← same]; rfl)
      refine ⟨fun empty => ?_, fun either => by rcases either with none | none <;> cases none⟩
      exact absurd (⟨own, apart⟩ : other.id ∈ st.held \ {h.id}) (Set.eq_empty_iff_forall_notMem.mp empty _)

theorem leftSome {lost : Set ℕ} (holds : Holds st lost) {h : Held} (here : st.result.or st.lastResult = some h)
    (fine : h.res.status.isError = false) :
    (if h.res.status = .tuplesOk ∨ h.res.status.isError then st.held \ {h.id} else st.held) = ∅ ↔
      h.res.status = .tuplesOk ∧ (st.result = none ∨ st.lastResult = none) := by
  have noError : ¬h.res.status.isError = true := by rw [fine]; decide
  by_cases tuples : h.res.status = .tuplesOk
  case pos =>
    rw [if_pos (.inl tuples), leftEmpty holds here]
    exact (and_iff_right tuples).symm
  case neg =>
    rw [if_neg (not_or.mpr ⟨tuples, noError⟩)]
    exact ⟨fun empty => absurd (orHeld here) (Set.eq_empty_iff_forall_notMem.mp empty _),
      fun both => absurd both.1 tuples⟩

theorem askedMem {results : List PGresult} {res : PGresult} (here : asked resultToRetrieve results = some res) :
    res ∈ results := by
  unfold asked at here
  split at here
  · cases here
  · exact List.mem_of_getElem? here

theorem othersMem {results : List PGresult} {res : PGresult}
    (here : (others resultToRetrieve results).getLast? = some res) : res ∈ results := by
  have inside := List.mem_of_getLast? here
  unfold others at inside
  split at inside
  · exact inside
  · exact List.mem_of_mem_eraseIdx inside

theorem arrivedFine (on : ∀ t ∈ done, t.goesOn = true) : ∀ res ∈ arrived done, res.status.isError = false := by
  intro res member
  obtain ⟨t, inside, got⟩ := List.mem_filterMap.mp member
  have goes := on t inside
  unfold Turn.result at got
  split at got
  case isFalse => cases got
  case isTrue asked =>
    have idle : t.busy = false := by simpa using asked.2
    simpa [Turn.goesOn, asked.1, idle, got] using goes

theorem resultNone (tidy : Tidy resultToRetrieve done st) : st.result = none ↔ ¬InTime resultToRetrieve done := by
  rw [← tidy.inTime, Option.not_isSome_iff_eq_none]

theorem calmNone (tidy : Tidy resultToRetrieve done st)
    (calm : ∀ t ∈ done, t.cancelled = false ∧ t.cancelledOnKeep = false) :
    (st.result = none ↔ asked resultToRetrieve (arrived done) = none) ∧
      (st.lastResult = none ↔ others resultToRetrieve (arrived done) = []) := by
  obtain ⟨result, last⟩ := tidy.calm calm
  rw [← result, ← List.getLast?_eq_none_iff, ← last]
  simp

theorem calmHeld (tidy : Tidy resultToRetrieve done st)
    (calm : ∀ t ∈ done, t.cancelled = false ∧ t.cancelledOnKeep = false) : st.held = ∅ ↔ arrived done = [] := by
  obtain ⟨result, last⟩ := calmNone tidy calm
  rw [heldEmpty, result, last, arrivedNone]

theorem losesNone (tidy : Tidy resultToRetrieve done st) (on : ∀ u ∈ done, u.goesOn = true) {t : Turn}
    (stays : StaysCancelled (done ++ [t])) : t.loses (top t st) = ∅ ↔ Clears resultToRetrieve done t := by
  obtain ⟨sticks, calm⟩ := lastFlags stays
  have resultTop := (topSame t st).1
  unfold Turn.loses Clears
  by_cases consumed : t.consumed = 1
  case neg =>
    rw [if_pos consumed, if_pos consumed]
    cases failure : t.cancelledOnFailure with
    | true => rw [if_pos rfl, if_pos rfl, resultTop, idsEmpty, resultNone tidy]
    | false =>
      have never : t.cancelled = false := by
        by_contra cancelled
        have now := (sticks (Bool.of_not_eq_false cancelled)).1
        rw [failure] at now
        cases now
      rw [if_neg Bool.false_ne_true, if_neg Bool.false_ne_true, topCalm never, calmHeld tidy (calm never)]
  case pos =>
    rw [if_neg (not_not.mpr consumed), if_neg (not_not.mpr consumed)]
    cases answer : t.res with
    | some res =>
      dsimp only
      cases cancelled : t.cancelled with
      | true =>
        rw [if_pos rfl, heldEmpty, resultTop, topCleared cancelled tidy.rc, resultNone tidy]
        simp
      | false => rw [if_neg Bool.false_ne_true, topCalm cancelled, calmHeld tidy (calm cancelled)]
    | none =>
      dsimp only
      cases atEnd : t.cancelledAtEnd with
      | true =>
        rw [if_pos rfl, State.left, if_pos rfl, State.last, idsEmpty]
        cases cancelled : t.cancelled with
        | true => simp [topCleared cancelled tidy.rc]
        | false =>
          rw [topCalm cancelled, (calmNone tidy (calm cancelled)).2]
          simp
      | false =>
        have never : t.cancelled = false := by
          by_contra cancelled
          have now := (sticks (Bool.of_not_eq_false cancelled)).2
          rw [atEnd] at now
          cases now
        obtain ⟨result, last⟩ := tidy.calm (calm never)
        rw [if_neg Bool.false_ne_true, topCalm never, State.left, if_neg Bool.false_ne_true]
        have fine := arrivedFine on
        rw [← result, ← last]
        cases kept : st.result with
        | none =>
          cases lastKept : st.lastResult with
          | none => simp
          | some h =>
            rw [lastKept] at last
            have some_ : st.result.or st.lastResult = some h := by rw [kept, lastKept]; rfl
            have left := leftSome tidy.runs.holds some_ (fine h.res (othersMem last.symm))
            refine left.trans ?_
            simp [kept]
        | some h =>
          rw [kept] at result
          have some_ : st.result.or st.lastResult = some h := by rw [kept]; rfl
          have left := leftSome tidy.runs.holds some_ (fine h.res (askedMem result.symm))
          refine left.trans ?_
          cases lastKept : st.lastResult <;> simp [kept]

theorem finishBuffers (cancelledAtEnd : Bool) (st : State) :
    (finish eventOnCancellation cancelledAtEnd st).state.buffers = st.buffers := by
  unfold finish
  split_ifs
  · exact clearResultBuffers st
  · split
    case h_1 => rfl
    case h_2 =>
      dsimp only
      split_ifs
      · rfl
      · rfl
      · exact clearResultBuffers _
      · rfl

theorem drainBuffers {cancelledAtEnd : Bool} (ds : List Drain) (st : State) {r : Returned}
    (ok : drain eventOnCancellation cancelledAtEnd ds st = .returned r) : r.state.buffers = st.buffers := by
  induction ds generalizing st with
  | nil => cases ok
  | cons d ds ih =>
    unfold drain at ok
    split_ifs at ok
    · cases ok
      exact clearResultBuffers st
    · cases ok
      exact finishBuffers _ st
    · split at ok
      case h_1 =>
        cases ok
        exact finishBuffers _ st
      case h_2 res _ => exact ih (st.got.clears (st.handle res)) ok

theorem lastBuffers {t : Turn} (off : t.goesOn = false) {r : Returned}
    (ok : turn eventOnCancellation resultToRetrieve t st = .returned r) : r.state.buffers = st.buffers := by
  have same := (topSame t st).2.2
  unfold Turn.goesOn at off
  unfold turn at ok
  dsimp only at ok
  generalize top t st = next at same ok
  split_ifs at ok with consumed failure busy
  · cases ok
    exact (clearLastBuffers next).trans same
  · cases ok
    exact same
  · rw [not_not] at consumed
    rw [decide_eq_true consumed, Bool.true_and, Bool.or_eq_false_iff] at off
    cases answer : t.res with
    | none =>
      rw [answer] at ok
      cases ok
      exact (finishBuffers _ _).trans same
    | some res =>
      rw [answer] at off ok
      have error : res.status.isError = true := by simpa using off.2
      dsimp only at ok
      rw [if_pos error] at ok
      exact (drainBuffers _ _ ok).trans same

theorem runClears (turns : List Turn) (tidy : Tidy resultToRetrieve done st) (on : ∀ u ∈ done, u.goesOn = true)
    (noCopy : ∀ t ∈ turns.takeWhile Turn.goesOn, ¬t.Copies) (stays : StaysCancelled (done ++ turns)) {r : Returned}
    (ok : loop eventOnCancellation resultToRetrieve turns st = some r) :
    Owned r ↔ ∀ t ∈ (turns.dropWhile Turn.goesOn).head?,
      Clears resultToRetrieve (done ++ turns.takeWhile Turn.goesOn) t := by
  induction turns generalizing done st with
  | nil => cases ok
  | cons t turns ih =>
    unfold loop at ok
    cases goes : t.goesOn with
    | true =>
      rw [List.takeWhile_cons_of_pos goes] at noCopy
      obtain ⟨here, later⟩ := List.forall_mem_cons.mp noCopy
      rw [turnOn goes fun res got status => here ⟨res, got, status⟩] at ok
      rw [List.append_cons] at stays
      have goOn := List.forall_mem_append.mpr ⟨on, List.forall_mem_singleton.mpr goes⟩
      rw [List.takeWhile_cons_of_pos goes, List.dropWhile_cons_of_pos goes, List.append_cons]
      exact ih (tidyProceed tidy t) goOn later stays ok
    | false =>
      have off : ¬t.goesOn = true := by rw [goes]; decide
      obtain ⟨ending, ends⟩ := @lastTurn eventOnCancellation _ _ _ tidy.runs t goes
      rw [List.takeWhile_cons_of_neg off, List.dropWhile_cons_of_neg off, List.append_nil]
      cases run : turn eventOnCancellation resultToRetrieve t st with
      | waiting =>
        rw [run] at ok
        cases ok
      | again next => exact absurd run (ending next)
      | returned r' =>
        rw [run] at ok
        cases ok
        have first : StaysCancelled (done ++ [t]) := by
          rw [List.append_cons, StaysCancelled, List.flatMap_append] at stays
          exact (List.pairwise_append.mp stays).1
        have buffers : r.state.buffers = [] := (lastBuffers goes run).trans tidy.buffers
        rw [(ends r run).owned, Set.union_empty, losesNone tidy on first, buffers]
        simp

end Tidy

theorem started (resultToRetrieve : ℤ) : Tidy resultToRetrieve [] start where
  runs := ⟨⟨.nil, fun _ none => (by cases none), fun id => by simp [Live, start, State.held],
    fun _ none => (by cases none), fun _ held => held.elim (fun none => by cases none) (fun none => by cases none)⟩,
    fun none => by cases none⟩
  count := rfl
  inTime := ⟨fun none => (by cases none), fun ⟨front, t, back, split, _⟩ => by simp at split⟩
  calm _ := by
    unfold asked others
    split_ifs <;> exact ⟨rfl, rfl⟩
  rc := by decide
  buffers := rfl

def Query.sends (query : Query) : Bool :=
  query.connectionOk && query.converted && !(query.params && query.useCallable) && query.sent

theorem unsent (rc : ℤ) : Owned (RaiseEvent { start with rc := rc } rc) where
  once _ none := absurd none List.not_mem_nil
  freed _ none := absurd none List.not_mem_nil
  unused before id after split := by simp [RaiseEvent, start] at split

/- When the query has been run, each result and each buffer has been dealt with just where the stream is clean, or
nothing was sent. -/
theorem resultsOwned (eventOnCancellation : Bool) (query : Query) (turns : List Turn) (stays : StaysCancelled turns)
    (r : Returned) (ok : Execute eventOnCancellation query turns = some r) :
    Owned r ↔ (query.sends = true → Clean query.resultToRetrieve turns) := by
  unfold Execute at ok
  have early {rc : ℤ} (failed : some (RaiseEvent { start with rc := rc } rc) = some r) (off : query.sends = false) :
      Owned r ↔ (query.sends = true → Clean query.resultToRetrieve turns) :=
    iff_of_true (Option.some.inj failed ▸ unsent rc) fun on => by rw [off] at on; cases on
  dsimp only at ok
  split_ifs at ok with connection converted callable sent
  · rw [Bool.not_eq_true'] at connection
    exact early ok (by simp [Query.sends, connection])
  · rw [Bool.not_eq_true'] at converted
    exact early ok (by simp [Query.sends, converted])
  · exact early ok (by simp [Query.sends, callable])
  · rw [Bool.not_eq_true'] at sent
    exact early ok (by simp [Query.sends, sent])
  · have on : query.sends = true := by
      rw [Bool.not_eq_true, Bool.not_eq_false'] at connection converted sent
      rw [Bool.not_eq_true] at callable
      simp [Query.sends, connection, converted, callable, sent]
    rw [imp_iff_right on]
    by_cases copies : ∃ t ∈ turns.takeWhile Turn.goesOn, t.Copies
    case pos =>
      refine iff_of_false (lossStays turns (started _).runs (.inr copies) ok) fun clean => ?_
      obtain ⟨t, inside, copying⟩ := copies
      exact clean.1 t inside copying
    case neg =>
      have noCopy : ∀ t ∈ turns.takeWhile Turn.goesOn, ¬t.Copies := fun t inside copying =>
        copies ⟨t, inside, copying⟩
      rw [runClears turns (started _) (fun _ none => absurd none List.not_mem_nil) noCopy stays ok, Clean,
        List.nil_append]
      exact (and_iff_right noCopy).symm

section Examples

def answers (res : Option PGresult) : Turn where
  cancelled := false
  consumed := 1
  cancelledOnFailure := false
  bad := false
  busy := false
  res := res
  drain := []
  copy := []
  afterCopy := none
  cancelledOnKeep := false
  cancelledOnDiscard := false
  cancelledAtEnd := false

def sentQuery : Query := ⟨true, true, false, false, true, 0⟩

def tuples : PGresult := ⟨.tuplesOk, 0, none⟩

theorem selectOwned :
    ∃ r, Execute false sentQuery [answers (some tuples), answers none] = some r ∧ Owned r := by
  refine ⟨_, rfl, (resultsOwned false sentQuery [answers (some tuples), answers none] (by decide) _ rfl).mpr ?_⟩
  intro _
  constructor
  · intro t inside
    cases List.mem_singleton.mp (show t ∈ [answers (some tuples)] from inside)
    rintro ⟨res, got, status⟩
    cases got
    cases status
  · intro t last
    cases last
    rfl

/- The result of an INSERT is never cleared. -/
theorem insertLost : ∃ r,
    Execute false sentQuery [answers (some ⟨.commandOk, 0, some 1⟩), answers none] = some r ∧ ¬Owned r := by
  refine ⟨_, rfl, fun owned => ?_⟩
  exact absurd (owned.once 0 (by decide)) (by decide)

end Examples

end PgAdmin.pgQueryThread
