import Mathlib.Algebra.Order.Ring.Int
import PgAdmin.LibpqSession
import PgAdmin.QueryThreadOwners

/-! The thread that runs a query against libpq: the answers its calls get, in the order of the calls, and how Execute
ends with them. -/
namespace PgAdmin.pgQueryThread
open libpq

variable {lib : Library}

variable {lib : Library}

def quiet (cancelled : Bool) : Turn where
  cancelled := cancelled
  consumed := 1
  cancelledOnFailure := cancelled
  bad := false
  busy := false
  res := none
  drain := []
  copy := []
  afterCopy := none
  cancelledOnKeep := cancelled
  cancelledOnDiscard := cancelled
  cancelledAtEnd := cancelled

section Exchange
variable (moment : Option ℕ) (eventOnCancellation : Bool) (resultToRetrieve : ℤ)

/- With the last look at m_cancelled behind the loop. -/
def drainAnswers : ℕ → Session lib → List Drain × Bool × Session lib
  | 0, s => ([], false, s)
  | fuel + 1, s =>
    let consumed := s.consumes
    let s := s.consumed
    if consumed ≠ 1 then
      let cancelled := s.m_cancelled moment
      let s := s.looked
      if cancelled then ([⟨consumed, true, none⟩], true, s)
      else ([⟨consumed, false, none⟩], s.m_cancelled moment, s.looked)
    else
      let s' := s.PQgetResult.2
      match s.PQgetResult.1 with
      | none => ([⟨consumed, false, none⟩], s'.m_cancelled moment, s'.looked)
      | some res =>
        let rest := drainAnswers fuel s'
        (⟨consumed, false, some res⟩ :: rest.1, rest.2)

def copyAnswers : ℕ → Session lib → List Copied × Bool × Session lib
  | 0, s => ([], false, s)
  | fuel + 1, s =>
    let rc := s.copyRc
    let s := s.copyTaken
    if rc < 0 then ([⟨rc, false, 1, false, false⟩], true, s)
    else
      let cancelled := s.m_cancelled moment
      let s := s.looked
      if !cancelled && rc = 0 then
        let consumed := s.consumes
        let s := s.consumed
        if consumed = 0 then
          ([⟨rc, false, consumed, s.m_cancelled moment, s.bad⟩], false, s.looked)
        else
          let rest := copyAnswers fuel s
          (⟨rc, false, consumed, false, false⟩ :: rest.1, rest.2)
      else
        let rest := copyAnswers fuel s
        (⟨rc, cancelled, 1, false, false⟩ :: rest.1, rest.2)

def endAnswers (t : Turn) (s : Session lib) : Turn × Session lib :=
  ({ t with cancelledAtEnd := s.m_cancelled moment }, s.looked)

def keepAnswers (t : Turn) (st : State) (s : Session lib) : Turn × Session lib :=
  let cancelled := s.m_cancelled moment
  let t := { t with cancelledOnKeep := cancelled }
  let s := s.looked
  if !cancelled && (st.resultsRetrieved + 1 : ℤ) = resultToRetrieve then (t, s)
  else if st.lastResult.isSome then ({ t with cancelledOnDiscard := s.m_cancelled moment }, s.looked)
  else (t, s)

def copiedAnswers (fuel : ℕ) (t : Turn) (st : State) (s : Session lib) : Turn × Session lib :=
  let asked := copyAnswers moment fuel s
  let t := { t with copy := asked.1 }
  let s := asked.2.2
  if asked.2.1 then
    match s.PQgetResult.1 with
    | none => endAnswers moment t s.PQgetResult.2
    | some res => keepAnswers moment resultToRetrieve { t with afterCopy := some res } st s.PQgetResult.2
  else (t, s)

def turnAnswers (fuel : ℕ) (s : Session lib) (st : State) : Turn × Session lib :=
  let t := quiet (s.m_cancelled moment)
  let s := s.looked
  let st := top t st
  let t := { t with consumed := s.consumes }
  let s := s.consumed
  if t.consumed ≠ 1 then
    ({ t with cancelledOnFailure := s.m_cancelled moment, bad := s.bad }, s.looked)
  else if s.PQisBusy then ({ t with busy := true }, s)
  else
    let s' := s.PQgetResult.2
    match s.PQgetResult.1 with
    | none => endAnswers moment t s'
    | some res =>
      let t := { t with res := some res }
      if res.status.isError then
        let asked := drainAnswers moment fuel s'
        ({ t with drain := asked.1, cancelledAtEnd := asked.2.1 }, asked.2.2)
      else if res.status = .copyOut then copiedAnswers moment resultToRetrieve fuel t st s'
      else keepAnswers moment resultToRetrieve t st (if res.status = .copyIn then s'.PQputCopyEnd else s')

def exchange : ℕ → Session lib → State → List Turn × Session lib
  | 0, s, _ => ([], s)
  | fuel + 1, s, st =>
    let asked := turnAnswers moment resultToRetrieve fuel s st
    match turn eventOnCancellation resultToRetrieve asked.1 st with
    | .again st =>
      let rest := exchange fuel asked.2 st
      (asked.1 :: rest.1, rest.2)
    | _ => ([asked.1], asked.2)

/- The loop over COPY data sees the cancellation while none has come: it never reads again. -/
def Waits (copy : List Copied) : Prop := ∃ c ∈ copy, c.rc = 0 ∧ c.cancelled = true

def Stuck (s : Session lib) : Prop :=
  ∃ fuel, ∃ t ∈ (exchange moment eventOnCancellation resultToRetrieve fuel s start).1, Waits t.copy

end Exchange

/- The last look at m_cancelled saw it set. -/
def seen (moment : Option ℕ) (s : Session lib) : Bool := moment.any fun look => look < s.looks

/- How Execute ends: with one event, or none for a cancellation without one, as cancelled exactly when the last look
says so, and with nothing left to fetch from a connection that works. -/
structure Ended (moment : Option ℕ) (eventOnCancellation : Bool) (r : Returned) (s : Session lib) : Prop where
  event : r.event = if r.value = PGQ_EXECUTION_CANCELLED ∧ eventOnCancellation = false then none else some r.value
  cancelled : r.value = PGQ_EXECUTION_CANCELLED ↔ seen moment s = true
  drained : s.failed = true ∨ s.Idle

/- The results of the commands before the first error, where that of COPY is the one behind its data. -/
def outcomes : List PGresult → List PGresult
  | [] => []
  | [res] => if res.status.isError || res.status = .copyOut then [] else [res]
  | res :: next :: rest =>
    if res.status.isError then []
    else if res.status = .copyOut then next :: outcomes rest
    else res :: outcomes (next :: rest)

/- The first error, which is none behind COPY data. -/
def failing : List PGresult → Option PGresult
  | [] => none
  | [res] => if res.status.isError then some res else none
  | res :: next :: rest =>
    if res.status.isError then some res
    else if res.status = .copyOut then failing rest
    else failing (next :: rest)

def answer (resultToRetrieve : ℤ) (results : List PGresult) : Option PGresult :=
  (failing results).or
    ((asked resultToRetrieve (outcomes results)).or (others resultToRetrieve (outcomes results)).getLast?)

def Verdict : Option PGresult → Returned → Prop
  | none, r => r.value = Status.fatalError.code
  | some res, r =>
    if res.status.isError then r.value = res.status.code
    else r.value = 1 ∧ r.state.result.map Held.res = some res ∧
      r.dataSet.map Held.res = if res.status = .tuplesOk then some res else none

section Ends
variable {moment : Option ℕ} {eventOnCancellation : Bool} {s : Session lib}

theorem codeNotCancelled (status : Status) : status.code ≠ PGQ_EXECUTION_CANCELLED := by
  cases status <;> decide

theorem seenLooked (moment : Option ℕ) (s : Session lib) : seen moment s.looked = s.m_cancelled moment := by
  simp only [seen, Session.m_cancelled, Session.looked, Nat.lt_succ_iff]

theorem seenBefore {s s' : Session lib} (later : s.looks ≤ s'.looks) (not_ : seen moment s' = false) :
    seen moment s = false := by
  cases moment with
  | none => rfl
  | some look =>
    simp only [seen, Option.any_some, decide_eq_false_iff_not, not_lt] at *
    exact later.trans not_

theorem cancelledEnds (st : State) (cancelled : s.m_cancelled moment = true)
    (drained : s.failed = true ∨ s.Idle) :
    Ended moment eventOnCancellation (cancelledReturn eventOnCancellation st) s.looked where
  event := by cases eventOnCancellation <;> rfl
  cancelled := by simp [seenLooked, cancelled, cancelledReturn]
  drained := drained

theorem endsOtherwise {r : Returned} (event : r.event = some r.value) (value : r.value ≠ PGQ_EXECUTION_CANCELLED)
    (calm : s.m_cancelled moment = false) (drained : s.failed = true ∨ s.Idle) :
    Ended moment eventOnCancellation r s.looked where
  event := by simp [event, value]
  cancelled := by simp [seenLooked, calm, value]
  drained := drained

theorem failedEnds (bad : Bool) (st : State) (calm : s.m_cancelled moment = false) (broken : s.failed = true) :
    Ended moment eventOnCancellation (failedReturn bad st) s.looked := by
  refine endsOtherwise rfl ?_ calm (.inl broken)
  cases bad <;> simp [failedReturn, RaiseEvent, PGQ_CONN_LOST, PGQ_ERROR_CONSUME_INPUT, PGQ_EXECUTION_CANCELLED]

theorem finishOtherwise (st : State) : (finish eventOnCancellation false st).event =
    some (finish eventOnCancellation false st).value ∧
      (finish eventOnCancellation false st).value ≠ PGQ_EXECUTION_CANCELLED ∧
      Verdict ((st.result.or st.lastResult).map Held.res) (finish eventOnCancellation false st) := by
  unfold finish
  rcases st.result.or st.lastResult with _ | h
  · exact ⟨rfl, codeNotCancelled .fatalError, rfl⟩
  · simp only [Bool.false_eq_true, if_false]
    split_ifs with tuples command error
    · simp [succeed, Verdict, tuples, PGQ_EXECUTION_CANCELLED, Status.isError, State.reads]
    · simp [succeed, Verdict, command, PGQ_EXECUTION_CANCELLED, Status.isError, State.reads]
    · simp [RaiseEvent, Verdict, error, codeNotCancelled]
    · simp [succeed, Verdict, error, tuples, PGQ_EXECUTION_CANCELLED, State.reads]

theorem finishedEnds (st : State) (drained : s.failed = true ∨ s.Idle) :
    Ended moment eventOnCancellation (finish eventOnCancellation (s.m_cancelled moment) st) s.looked := by
  rcases cancelled : s.m_cancelled moment
  · exact endsOtherwise (finishOtherwise st).1 (finishOtherwise st).2.1 cancelled drained
  · exact cancelledEnds _ cancelled drained

structure Closes (moment : Option ℕ) (eventOnCancellation : Bool) (res : Option PGresult) (r : Returned)
    (s : Session lib) :
    Prop where
  ended : Ended moment eventOnCancellation r s
  verdict : seen moment s = false → s.failed = false → Verdict res r

theorem finishCloses (st : State) (drained : s.failed = true ∨ s.Idle) :
    Closes moment eventOnCancellation ((st.result.or st.lastResult).map Held.res)
      (finish eventOnCancellation (s.m_cancelled moment) st) s.looked where
  ended := finishedEnds st drained
  verdict calm _ := by
    rw [seenLooked] at calm
    rw [calm]
    exact (finishOtherwise st).2.2

theorem takenLeft {s s' : Session lib} {res : PGresult} (taken : Taken s s' res)
    (noCopy : ∀ res ∈ s.results, isCopy res.status = false) :
    s'.copying = false ∧ ∀ res ∈ s'.results, isCopy res.status = false := by
  cases stays : s'.failed with
  | false =>
    obtain ⟨split, held⟩ := taken.fine stays
    rw [split] at noCopy
    exact ⟨held.trans (noCopy res List.mem_cons_self), fun later mem => noCopy later (List.mem_cons_of_mem _ mem)⟩
  | true =>
    obtain ⟨-, empty, held⟩ := taken.broken stays
    rw [empty]
    exact ⟨held, by simp⟩

theorem drainLooks (fuel : ℕ) (s : Session lib) : s.looks ≤ (drainAnswers moment fuel s).2.2.looks := by
  induction fuel generalizing s with
  | zero => exact le_rfl
  | succ fuel ih =>
    unfold drainAnswers
    dsimp only
    split_ifs
    · exact Nat.le_succ _
    · exact Nat.le_add_right _ 2
    · split
      · exact Nat.le_succ _
      · exact ih s.consumed.PQgetResult.2

section Documented
variable (documented : lib.Documented)
include documented

theorem drainCloses (moment : Option ℕ) (eventOnCancellation : Bool) (fuel : ℕ) (s : Session lib) (st : State)
    (copying : s.copying = false)
    (noCopy : ∀ res ∈ s.results, isCopy res.status = false) :
    match drain eventOnCancellation (drainAnswers moment fuel s).2.1 (drainAnswers moment fuel s).1 st with
    | .returned r => Closes moment eventOnCancellation ((st.result.or st.lastResult).map Held.res) r
        (drainAnswers moment fuel s).2.2
    | .again _ => False
    | .waiting => fuel ≤ s.size := by
  induction fuel generalizing s st with
  | zero => exact Nat.zero_le _
  | succ fuel ih =>
    unfold drainAnswers
    by_cases ok : s.consumes = 1
    · obtain ⟨-, calm, same, -, results, -, size, -⟩ := consumedOk documented ok
      rw [← same] at copying
      simp only [ok, ne_eq, not_true, if_false]
      rcases got : s.consumed.PQgetResult.1 with _ | res
      · exact finishCloses st (.inr (getResultNone documented copying calm got).1)
      · obtain ⟨taken, shorter⟩ := getResultSome documented copying calm got
        rw [← results] at noCopy
        have left := takenLeft taken noCopy
        have next := ih s.consumed.PQgetResult.2 (st.got.clears (st.handle res)) left.1 left.2
        simp only [drain, ne_eq, not_true, if_false]
        generalize drain eventOnCancellation _ _ _ = after at next ⊢
        cases after with
        | again _ => exact next
        | returned r => exact next
        | waiting => exact Nat.succ_le_of_lt (Nat.lt_of_le_of_lt next (Nat.lt_of_lt_of_le shorter size))
    · obtain ⟨-, broken⟩ := consumedBad documented ok
      simp only [ne_eq, ok, not_false_eq_true, if_true]
      rcases cancelled : s.consumed.m_cancelled moment
      · simp only [Bool.false_eq_true, if_false, drain, ne_eq, ok, not_false_eq_true, if_true]
        exact finishCloses st (.inl broken)
      · simp only [if_true, drain, ne_eq, ok, not_false_eq_true]
        refine ⟨cancelledEnds _ cancelled (.inl broken), fun calm => ?_⟩
        rw [seenLooked, cancelled] at calm
        cases calm

theorem drainBroken (moment : Option ℕ) (fuel : ℕ) {s : Session lib} (broken : s.failed = true) :
    (drainAnswers moment fuel s).2.2.failed = true := by
  cases fuel with
  | zero => exact broken
  | succ fuel =>
    have bad : s.consumes ≠ 1 := fun ok => Bool.noConfusion (broken.symm.trans (consumedOk documented ok).1)
    unfold drainAnswers
    simp only [bad, ne_eq, not_false_eq_true, if_true]
    split_ifs <;> exact (consumedBad documented bad).2

end Documented

/- The loop over COPY data, where all that was kept stays. -/
structure Copies (s s' : Session lib) (st st' : State) : Prop where
  copying : s'.copying = false
  failed : s'.failed = s.failed
  looks : s.looks ≤ s'.looks
  results : s'.results = s.results
  size : s'.size ≤ s.size
  result : st'.result = st.result
  lastResult : st'.lastResult = st.lastResult
  resultsRetrieved : st'.resultsRetrieved = st.resultsRetrieved

def Copying (moment : Option ℕ) (eventOnCancellation : Bool) (fuel : ℕ) (s : Session lib) (st : State)
    (asked : List Copied × Bool × Session lib) : Prop :=
  match copyOut eventOnCancellation asked.1 st with
  | .again st' => asked.2.1 = true ∧ Copies s asked.2.2 st st'
  | .returned r => asked.2.1 = false ∧ asked.2.2.failed = true ∧ Ended moment eventOnCancellation r asked.2.2
  | .waiting => asked.2.1 = false ∧ (fuel ≤ s.size ∨ Waits asked.1)

theorem copyFurther {fuel : ℕ} (s' : Session lib) (st' : State) {st : State} {c : Copied}
    {asked : List Copied × Bool × Session lib}
    (failed : s'.failed = s.failed) (looks : s.looks ≤ s'.looks) (results : s'.results = s.results)
    (size : s'.size ≤ s.size) (same : st'.result = st.result ∧ st'.lastResult = st.lastResult ∧
      st'.resultsRetrieved = st.resultsRetrieved)
    (step : copyOut eventOnCancellation (c :: asked.1) st = copyOut eventOnCancellation asked.1 st')
    (shrinks : s'.size < s.size ∨ c.rc = 0 ∧ c.cancelled = true)
    (next : Copying moment eventOnCancellation fuel s' st' asked) :
    Copying moment eventOnCancellation (fuel + 1) s st (c :: asked.1, asked.2) := by
  unfold Copying at *
  rw [step]
  generalize copyOut eventOnCancellation asked.1 st' = after at next ⊢
  cases after with
  | again st'' =>
    obtain ⟨ends, copies⟩ := next
    exact ⟨ends, copies.copying, copies.failed.trans failed, looks.trans copies.looks, copies.results.trans results,
      copies.size.trans size, copies.result.trans same.1, copies.lastResult.trans same.2.1,
      copies.resultsRetrieved.trans same.2.2⟩
  | returned r => exact next
  | waiting =>
    obtain ⟨ends, enough | ⟨c', mem, waits⟩⟩ := next
    · rcases shrinks with less | here
      · exact ⟨ends, .inl (Nat.succ_le_of_lt (enough.trans_lt less))⟩
      · exact ⟨ends, .inr ⟨c, List.mem_cons_self, here⟩⟩
    · exact ⟨ends, .inr ⟨c', List.mem_cons_of_mem _ mem, waits⟩⟩

theorem copyCloses (documented : lib.Documented) (moment : Option ℕ) (eventOnCancellation : Bool) (fuel : ℕ)
    (s : Session lib) (st : State)
    (calm : s.failed = false) :
    Copying moment eventOnCancellation fuel s st (copyAnswers moment fuel s) := by
  induction fuel generalizing s st with
  | zero => exact ⟨rfl, .inl (Nat.zero_le _)⟩
  | succ fuel ih =>
    unfold copyAnswers
    by_cases ends : s.copyRc < 0
    · obtain ⟨copying, failed, looks, results, size⟩ := copyTakenEnd documented ends
      simp only [ends, if_true, Copying, copyOut]
      exact ⟨trivial, copying, failed, looks.ge, results, size, rfl, rfl, rfl⟩
    obtain ⟨failed, looks, results, moved⟩ := copyTakenMore documented (not_lt.mp ends)
    simp only [ends, if_false]
    have size : s.copyTaken.looked.size ≤ s.size := by
      rcases moved with ⟨-, same, -⟩ | ⟨-, less⟩
      · exact (congrArg Session.size same).le
      · exact less.le
    have further : s.looks ≤ s.copyTaken.looked.looks := looks.ge.trans (Nat.le_succ _)
    rcases cancelled : s.copyTaken.m_cancelled moment
    · by_cases none_ : s.copyRc = 0
      · simp only [none_, Bool.not_false, decide_true, Bool.and_self, if_true]
        by_cases broken : s.copyTaken.looked.consumes = 0
        · have bad := (consumedBad documented (s := s.copyTaken.looked) (by rw [broken]; decide)).2
          simp only [broken, if_true, Copying, copyOut, lt_irrefl, if_false, Bool.false_eq_true, true_and]
          rcases again : s.copyTaken.looked.consumed.m_cancelled moment
          · exact ⟨bad, failedEnds _ _ again bad⟩
          · exact ⟨bad, cancelledEnds _ again (.inl bad)⟩
        · have ok : s.copyTaken.looked.consumes = 1 := by
            by_contra other
            exact broken (consumedBad documented other).1
          obtain ⟨-, calm', -, looks', results', -, less⟩ := consumedOk documented ok
          have waits : s.copyTaken.looked.waits = true := by
            rcases moved with ⟨-, same, waits⟩ | ⟨positive, -⟩
            · rw [same]
              exact waits
            · omega
          simp only [ok, one_ne_zero, if_false]
          exact copyFurther _ st (calm'.trans calm.symm) (looks'.symm ▸ further) (results'.trans results)
            (less.1.trans size) ⟨rfl, rfl, rfl⟩ (by simp [copyOut]) (.inl ((less.2 waits).trans_le size))
            (ih _ st calm')
      · have positive : 0 < s.copyRc := lt_of_le_of_ne (not_lt.mp ends) (Ne.symm none_)
        have less : s.copyTaken.looked.size < s.size := by
          rcases moved with ⟨empty, -⟩ | ⟨-, less⟩
          · exact (none_ empty).elim
          · exact less
        simp only [none_, decide_false, Bool.and_false, Bool.false_eq_true, if_false]
        exact copyFurther s.copyTaken.looked (st.gotCopy.freeCopy st.copied) failed further results size
          ⟨rfl, rfl, rfl⟩ (by simp [copyOut, ends, positive, none_]) (.inl less) (ih _ _ (failed.trans calm))
    · simp only [Bool.not_true, Bool.false_and, Bool.false_eq_true, if_false]
      refine copyFurther s.copyTaken.looked { (if 0 < s.copyRc then st.gotCopy else st) with
        connExecutionCancelled := true } failed further results size ?_ (by simp [copyOut, ends]) ?_
          (ih _ _ (failed.trans calm))
      · split_ifs <;> exact ⟨rfl, rfl, rfl⟩
      · rcases moved with ⟨empty, -⟩ | ⟨-, less⟩
        · exact .inr ⟨empty, rfl⟩
        · exact .inl less

end Ends

end PgAdmin.pgQueryThread
