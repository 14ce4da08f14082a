import PgAdmin.QueryAnswers

/-! The query thread against libpq over whole runs: what a turn of its loop leaves, whether the loop ends, and with
which result. -/
namespace PgAdmin.pgQueryThread
open libpq

variable {lib : Library}

variable {lib : Library}

section Course
variable {moment : Option ℕ} {eventOnCancellation : Bool} {resultToRetrieve : ℤ} {all : List PGresult} {s : Session lib}
  {st : State}

structure Told (resultToRetrieve : ℤ) (outs : List PGresult) (st : State) : Prop where
  count : st.resultsRetrieved = outs.length
  result : st.result.map Held.res = asked resultToRetrieve outs
  lastResult : st.lastResult.map Held.res = (others resultToRetrieve outs).getLast?

structure Course (moment : Option ℕ) (resultToRetrieve : ℤ) (all : List PGresult) (s : Session lib) (st : State) :
    Prop where
  copying : s.copying = false
  served : Served s.results
  told : seen moment s = false → s.failed = false → ∃ outs, outcomes all = outs ++ outcomes s.results ∧
    failing all = failing s.results ∧ Told resultToRetrieve outs st

def Proceeds (moment : Option ℕ) (eventOnCancellation : Bool) (resultToRetrieve : ℤ) (all : List PGresult) (fuel : ℕ)
    (s : Session lib) (asked : Turn × Session lib) : Next → Prop
  | .again st => asked.2.size < s.size ∧ Course moment resultToRetrieve all asked.2 st
  | .returned r => Closes moment eventOnCancellation (answer resultToRetrieve all) r asked.2
  | .waiting => fuel ≤ s.size ∨ Waits asked.1.copy

section Turns
variable {t : Turn}

theorem turnFails (ends : t.consumed ≠ 1) : turn eventOnCancellation resultToRetrieve t st =
    .returned (if t.cancelledOnFailure then cancelledReturn eventOnCancellation (top t st).clearLast
      else failedReturn t.bad (top t st)) := by
  simp only [turn, ends, ne_eq, not_false_eq_true, if_true]
  split_ifs <;> rfl

theorem turnBusy (on : t.consumed = 1) (busy : t.busy = true) :
    turn eventOnCancellation resultToRetrieve t st = .again { top t st with rc := 1 } := by
  simp only [turn, on, ne_eq, not_true, if_false, busy, if_true]

theorem turnEnds (on : t.consumed = 1) (busy : t.busy = false) (none_ : t.res = none) :
    turn eventOnCancellation resultToRetrieve t st =
      .returned (finish eventOnCancellation t.cancelledAtEnd { top t st with rc := 1 }) := by
  simp only [turn, on, ne_eq, not_true, if_false, busy, Bool.false_eq_true, none_]

def gotten (cancelled : Bool) (res : PGresult) (st : State) : State :=
  let st := { top (quiet cancelled) st with rc := 1 }
  st.got.reads (st.handle res)

theorem gottenSame {cancelled : Bool} (same : top (quiet cancelled) st = st) (res : PGresult) :
    (gotten cancelled res st).result = st.result ∧ (gotten cancelled res st).lastResult = st.lastResult ∧
      (gotten cancelled res st).resultsRetrieved = st.resultsRetrieved := by
  unfold gotten
  rw [same]
  exact ⟨rfl, rfl, rfl⟩

theorem turnErrs (eventOnCancellation : Bool) (resultToRetrieve : ℤ) (t : Turn) (st : State) (on : t.consumed = 1)
    (busy : t.busy = false) {res : PGresult} (here : t.res = some res)
    (error : res.status.isError = true) : turn eventOnCancellation resultToRetrieve t st =
      drain eventOnCancellation t.cancelledAtEnd t.drain
        { gotten t.cancelled res st with result := some ⟨(top (quiet t.cancelled) st).obtained, res⟩ } := by
  simp only [turn, on, ne_eq, not_true, if_false, busy, Bool.false_eq_true, here, error, if_true]
  rfl

theorem turnKeeps (eventOnCancellation : Bool) (resultToRetrieve : ℤ) (t : Turn) (st : State) (on : t.consumed = 1)
    (busy : t.busy = false) {res : PGresult} (here : t.res = some res)
    (fine : res.status.isError = false) (plain : res.status ≠ .copyOut) : ∃ id rc,
      turn eventOnCancellation resultToRetrieve t st =
        .again (keep resultToRetrieve t ⟨id, res⟩ { gotten t.cancelled res st with rc := rc }) := by
  simp only [turn, on, ne_eq, not_true, if_false, busy, Bool.false_eq_true, here, fine, plain]
  by_cases copy : res.status = .copyIn
  · simp only [copy, if_true]
    exact ⟨_, _, rfl⟩
  · simp only [copy, if_false]
    exact ⟨_, _, rfl⟩

theorem turnCopies (on : t.consumed = 1) (busy : t.busy = false) {res : PGresult} (here : t.res = some res)
    (copy : res.status = .copyOut) : turn eventOnCancellation resultToRetrieve t st =
      match copyOut eventOnCancellation t.copy { gotten t.cancelled res st with rc := Status.copyOut.code } with
      | .again st => match t.afterCopy with
        | none => .returned (finish eventOnCancellation t.cancelledAtEnd st)
        | some res => .again (keep resultToRetrieve t (st.handle res) st.got)
      | .returned r => .returned r
      | .waiting => .waiting := by
  simp only [turn, on, ne_eq, not_true, if_false, busy, Bool.false_eq_true, here, copy, Status.isError, if_true]
  rfl

end Turns

theorem keepAnswersTurn (moment : Option ℕ) (resultToRetrieve : ℤ) (t : Turn) (st : State) (s : Session lib) :
    ∃ discard, (keepAnswers moment resultToRetrieve t st s).1 =
      { t with cancelledOnKeep := s.m_cancelled moment, cancelledOnDiscard := discard } := by
  unfold keepAnswers
  dsimp only
  split_ifs <;> exact ⟨_, rfl⟩

theorem keepAnswersSession (moment : Option ℕ) (resultToRetrieve : ℤ) (t : Turn) (st : State) (s : Session lib) :
    ∃ looks, s.looks < looks ∧ (keepAnswers moment resultToRetrieve t st s).2 = { s with looks := looks } := by
  unfold keepAnswers
  dsimp only
  split_ifs
  · exact ⟨_, Nat.lt_succ_self _, rfl⟩
  · exact ⟨_, Nat.lt_succ_of_lt (Nat.lt_succ_self _), rfl⟩
  · exact ⟨_, Nat.lt_succ_self _, rfl⟩

theorem toldKeeps {outs : List PGresult} {st' : State} (told : Told resultToRetrieve outs st)
    (same : st'.result = st.result ∧ st'.lastResult = st.lastResult ∧ st'.resultsRetrieved = st.resultsRetrieved)
    {t : Turn} (calm : t.cancelledOnKeep = false) (h : Held) :
    Told resultToRetrieve (outs ++ [h.res]) (keep resultToRetrieve t h st') := by
  obtain ⟨count, -, -, taken, other⟩ := keepFields t h st'
  rw [same.2.2, told.count] at count taken other
  refine ⟨by rw [count, List.length_append]; rfl, ?_, ?_⟩
  · rw [askedSnoc]
    split_ifs with now
    · rw [(taken ⟨calm, now⟩).1]
      rfl
    · rw [(other fun both => now both.2).1, same.1, told.result]
  · rw [othersSnoc]
    split_ifs with now
    · rw [(taken ⟨calm, now⟩).2, same.2.1, told.lastResult]
    · rw [(other fun both => now both.2).2, List.getLast?_concat]
      rfl

theorem closesFor {res res' : Option PGresult} {r : Returned} (closes : Closes moment eventOnCancellation res r s)
    (same : seen moment s = false → s.failed = false → res = res') : Closes moment eventOnCancellation res' r s where
  ended := closes.ended
  verdict calm working := same calm working ▸ closes.verdict calm working

theorem brokenCloses {res : Option PGresult} {r : Returned} (ended : Ended moment eventOnCancellation r s)
    (broken : s.failed = true) : Closes moment eventOnCancellation res r s where
  ended := ended
  verdict _ working := by
    rw [working] at broken
    cases broken

theorem failingHead {res : PGresult} (error : res.status.isError = true) (rest : List PGresult) :
    failing (res :: rest) = some res := by
  cases rest <;> simp [failing, error]

theorem plainHead {res : PGresult} (fine : res.status.isError = false) (plain : res.status ≠ .copyOut)
    (rest : List PGresult) : outcomes (res :: rest) = res :: outcomes rest ∧ failing (res :: rest) = failing rest := by
  cases rest <;> simp [outcomes, failing, fine, plain]

theorem copyHead {res next : PGresult} (copy : res.status = .copyOut) (rest : List PGresult) :
    outcomes (res :: next :: rest) = next :: outcomes rest ∧ failing (res :: next :: rest) = failing rest := by
  simp [outcomes, failing, copy, Status.isError]

theorem copyAlone {res : PGresult} (copy : res.status = .copyOut) : outcomes [res] = [] ∧ failing [res] = none := by
  simp [outcomes, failing, copy, Status.isError]

theorem toldAnswer {outs : List PGresult} (told : Told resultToRetrieve outs st) (outcomes_ : outcomes all = outs)
    (failing_ : failing all = none) :
    (st.result.or st.lastResult).map Held.res = answer resultToRetrieve all := by
  rw [answer, failing_, outcomes_, ← told.result, ← told.lastResult]
  cases st.result <;> rfl

theorem courseTold (course : Course moment resultToRetrieve all s st) (working : s.failed = false) {s' : Session lib}
    (later : s.looks < s'.looks) (calm : seen moment s' = false) :
    (∀ t, t.cancelled = s.m_cancelled moment → top t st = st) ∧ ∃ outs, outcomes all = outs ++ outcomes s.results ∧
    failing all = failing s.results ∧
      Told resultToRetrieve outs st := by
  have unseen : s.m_cancelled moment = false := by
    rw [← seenLooked]
    exact seenBefore later calm
  exact ⟨fun t first => topCalm (first.trans unseen) st, course.told
    (seenBefore (Nat.le_succ _) ((seenLooked moment s).trans unseen))
    working⟩

theorem keepProceeds {fuel : ℕ} {t : Turn} {s' : Session lib} {st₀ : State} (st' : State) (h : Held)
    (turned : turn eventOnCancellation resultToRetrieve (keepAnswers moment resultToRetrieve t st₀ s').1 st =
      .again (keep resultToRetrieve (keepAnswers moment resultToRetrieve t st₀ s').1 h st'))
    (copying : s'.copying = false) (served : Served s'.results) (shorter : s'.size < s.size)
    (told : seen moment s'.looked = false → s'.failed = false → ∃ outs, outcomes all =
    outs ++ h.res :: outcomes s'.results ∧
      failing all = failing s'.results ∧ Told resultToRetrieve outs st') :
    Proceeds moment eventOnCancellation resultToRetrieve all fuel s (keepAnswers moment resultToRetrieve t st₀ s')
      (turn eventOnCancellation resultToRetrieve (keepAnswers moment resultToRetrieve t st₀ s').1 st) := by
  rw [turned]
  obtain ⟨discard, turn_⟩ := keepAnswersTurn moment resultToRetrieve t st₀ s'
  obtain ⟨looks, later, session⟩ := keepAnswersSession moment resultToRetrieve t st₀ s'
  refine ⟨by rw [session]; exact shorter, by rw [session]; exact copying, by rw [session]; exact served, ?_⟩
  rw [session, turn_]
  intro unseen working
  have first : seen moment s'.looked = false := seenBefore (Nat.succ_le_of_lt later) unseen
  obtain ⟨outs, before, error, told⟩ := told first working
  refine ⟨outs ++ [h.res], ?_, error, toldKeeps told ⟨rfl, rfl, rfl⟩ ((seenLooked moment s').symm.trans first) h⟩
  rw [before, List.append_assoc]
  rfl

theorem plainProceeds (s' : Session lib) (course : Course moment resultToRetrieve all s st) (working : s.failed = false)
    {fuel : ℕ} {t : Turn}
    (first : t.cancelled = s.m_cancelled moment) (on : t.consumed = 1) (busy : t.busy = false) {res : PGresult}
    (here : t.res = some res) (fine : res.status.isError = false) (plain : res.status ≠ .copyOut)
    {st₀ : State} (results : s.results = res :: s'.results) (copying : s'.copying = false) (later : s.looks < s'.looks)
    (shorter : s'.size < s.size) :
    Proceeds moment eventOnCancellation resultToRetrieve all fuel s (keepAnswers moment resultToRetrieve t st₀ s')
      (turn eventOnCancellation resultToRetrieve (keepAnswers moment resultToRetrieve t st₀ s').1 st) := by
  obtain ⟨discard, turn_⟩ := keepAnswersTurn moment resultToRetrieve t st₀ s'
  obtain ⟨id, rc, turned⟩ := turnKeeps eventOnCancellation resultToRetrieve
    (keepAnswers moment resultToRetrieve t st₀ s').1 st (by rw [turn_]; exact on) (by rw [turn_]; exact busy)
    (by rw [turn_]; exact here) fine plain
  have served : Served (res :: s'.results) := results ▸ course.served
  refine keepProceeds _ _ turned copying served.2.2.2 shorter fun unseen _ => ?_
  obtain ⟨same, outs, before, error, told⟩ := courseTold course working (later.trans (Nat.lt_succ_self _)) unseen
  have fields := gottenSame (same (quiet (s.m_cancelled moment)) rfl) res
  rw [results, (plainHead fine plain _).1] at before
  rw [results, (plainHead fine plain _).2] at error
  refine ⟨outs, before, error, ?_⟩
  rw [turn_]
  change Told resultToRetrieve outs { gotten t.cancelled res st with rc := rc }
  rw [first]
  exact ⟨fields.2.2 ▸ told.count, fields.1 ▸ told.result, fields.2.1 ▸ told.lastResult⟩

theorem errProceeds (documented : lib.Documented) (course : Course moment resultToRetrieve all s st)
    (working : s.failed = false) {fuel : ℕ} {t : Turn}
    (on : t.consumed = 1) (busy : t.busy = false) {res : PGresult}
    (here : t.res = some res) (error : res.status.isError = true) {s' : Session lib} (copying : s'.copying = false)
    (results : s'.failed = false → s.results = res :: s'.results)
    (noCopy : ∀ res ∈ s'.results, isCopy res.status = false)
    (later : s.looks < s'.looks) (shorter : s'.size < s.size) :
    Proceeds moment eventOnCancellation resultToRetrieve all fuel s
      ({ t with
        drain := (drainAnswers moment fuel s').1
        cancelledAtEnd := (drainAnswers moment fuel s').2.1 }, (drainAnswers moment fuel s').2.2)
      (turn eventOnCancellation resultToRetrieve { t with
        drain := (drainAnswers moment fuel s').1
        cancelledAtEnd := (drainAnswers moment fuel s').2.1 } st) := by
  have turned := turnErrs eventOnCancellation resultToRetrieve { t with
    drain := (drainAnswers moment fuel s').1
    cancelledAtEnd := (drainAnswers moment fuel s').2.1 } st on busy here error
  have next := drainCloses documented moment eventOnCancellation fuel s'
    { gotten t.cancelled res st with result := some ⟨(top (quiet t.cancelled) st).obtained, res⟩ } copying noCopy
  rw [turned]
  dsimp only
  generalize drain eventOnCancellation _ _ _ = after at next ⊢
  cases after with
  | again _ => exact next.elim
  | waiting => exact .inl (next.trans shorter.le)
  | returned r =>
    refine closesFor next fun unseen calm => ?_
    have stays : s'.failed = false := by
      by_contra broken
      have still := drainBroken documented moment fuel (Bool.eq_true_of_not_eq_false broken)
      rw [calm] at still
      cases still
    obtain ⟨-, outs, -, first, -⟩ := courseTold course working (later.trans_le (drainLooks fuel s')) unseen
    rw [answer, first, results stays, failingHead error]
    rfl

theorem toldSame {outs : List PGresult} {st' : State} (told : Told resultToRetrieve outs st)
    (result : st'.result = st.result) (lastResult : st'.lastResult = st.lastResult)
    (resultsRetrieved : st'.resultsRetrieved = st.resultsRetrieved) : Told resultToRetrieve outs st' where
  count := resultsRetrieved ▸ told.count
  result := result ▸ told.result
  lastResult := lastResult ▸ told.lastResult

theorem errorNoCopy {status : Status} (error : status.isError = true) : isCopy status = false := by
  cases status <;> simp_all [Status.isError, isCopy]

theorem notCopy {status : Status} (out : status ≠ .copyOut) (in_ : status ≠ .copyIn) (both : status ≠ .copyBoth) :
    isCopy status = false := by
  cases status <;> simp_all [isCopy]

theorem takenServed {s s' : Session lib} {res : PGresult} (taken : Taken s s' res) (served : Served s.results)
    (plain : isCopy res.status = false) : s'.copying = false ∧ Served s'.results := by
  cases stays : s'.failed with
  | false =>
    obtain ⟨split, held⟩ := taken.fine stays
    rw [split] at served
    exact ⟨held.trans plain, served.2.2.2⟩
  | true =>
    obtain ⟨-, empty, held⟩ := taken.broken stays
    rw [empty]
    exact ⟨held, trivial⟩

variable (documented : lib.Documented)
include documented

theorem copyProceeds (course : Course moment resultToRetrieve all s st) (working : s.failed = false) {fuel : ℕ}
    {t : Turn}
    (first : t.cancelled = s.m_cancelled moment) (on : t.consumed = 1) (busy : t.busy = false) {res : PGresult}
    (here : t.res = some res) (copy : res.status = .copyOut) (open_ : t.afterCopy = none) {s' : Session lib}
    {st₀ : State}
    (results : s.results = res :: s'.results) (calm : s'.failed = false) (later : s.looks < s'.looks)
    (shorter : s'.size < s.size) :
    Proceeds moment eventOnCancellation resultToRetrieve all fuel s
      (copiedAnswers moment resultToRetrieve fuel t st₀ s')
      (turn eventOnCancellation resultToRetrieve (copiedAnswers moment resultToRetrieve fuel t st₀ s').1 st) := by
  have next := copyCloses documented moment eventOnCancellation fuel s'
    { gotten t.cancelled res st with rc := Status.copyOut.code } calm
  have served : Served (res :: s'.results) := results ▸ course.served
  unfold Copying at next
  unfold copiedAnswers
  rcases after : copyOut eventOnCancellation (copyAnswers moment fuel s').1
    { gotten t.cancelled res st with rc := Status.copyOut.code } with st₂ | r | _ <;> rw [after] at next
  case returned =>
    simp only [next.1, Bool.false_eq_true, if_false]
    rw [turnCopies (t := { t with copy := (copyAnswers moment fuel s').1 }) on busy here copy]
    simp only [after]
    exact brokenCloses next.2.2 next.2.1
  case waiting =>
    simp only [next.1, Bool.false_eq_true, if_false]
    rw [turnCopies (t := { t with copy := (copyAnswers moment fuel s').1 }) on busy here copy]
    simp only [after]
    exact next.2.imp (·.trans shorter.le) id
  obtain ⟨ends, copies⟩ := next
  have behind {s₃ : Session lib} (further : (copyAnswers moment fuel s').2.2.looks ≤ s₃.looks)
      (unseen : seen moment s₃ = false) : ∃ outs, outcomes all = outs ++ outcomes s.results ∧
        failing all = failing s.results ∧ Told resultToRetrieve outs st₂ := by
    obtain ⟨same, outs, before, error, told⟩ :=
      courseTold course working (later.trans_le (copies.looks.trans further)) unseen
    have fields := gottenSame (same (quiet t.cancelled) first) res
    exact ⟨outs, before, error, toldSame told (copies.result.trans fields.1) (copies.lastResult.trans fields.2.1)
      (copies.resultsRetrieved.trans fields.2.2)⟩
  simp only [ends, if_true]
  rcases got : (copyAnswers moment fuel s').2.2.PQgetResult.1 with _ | next
  · obtain ⟨idle, -, none_⟩ := getResultNone documented copies.copying (copies.failed.trans calm) got
    simp only [endAnswers]
    rw [turnCopies (t := { t with
      copy := (copyAnswers moment fuel s').1
      cancelledAtEnd := (copyAnswers moment fuel s').2.2.PQgetResult.2.m_cancelled moment }) on busy here copy]
    simp only [after, open_]
    refine closesFor (finishCloses st₂ (.inr idle)) fun unseen _ => ?_
    obtain ⟨outs, before, error, told⟩ := behind (Nat.le_succ _) unseen
    rw [results, ← copies.results, none_, (copyAlone copy).1] at before
    rw [results, ← copies.results, none_, (copyAlone copy).2] at error
    exact toldAnswer told (before.trans (List.append_nil _)) error
  · obtain ⟨taken, less⟩ := getResultSome documented copies.copying (copies.failed.trans calm) got
    obtain ⟨discard, turn_⟩ := keepAnswersTurn moment resultToRetrieve
      { t with copy := (copyAnswers moment fuel s').1, afterCopy := some next } st₀
      (copyAnswers moment fuel s').2.2.PQgetResult.2
    have served' : Served (copyAnswers moment fuel s').2.2.results := copies.results ▸ served.2.2.2
    have plain : isCopy next.status = false := by
      cases stays : (copyAnswers moment fuel s').2.2.PQgetResult.2.failed with
      | false =>
        refine served.2.2.1 copy next ?_
        rw [← copies.results, (taken.fine stays).1]
        rfl
      | true =>
        rw [(taken.broken stays).1]
        rfl
    simp only
    refine keepProceeds st₂.got (st₂.handle next) ?_ ?_ ?_ (less.trans_le (copies.size.trans shorter.le)) ?_
    · rw [turn_, turnCopies (t := { t with
        copy := (copyAnswers moment fuel s').1
        afterCopy := some next
        cancelledOnKeep := (copyAnswers moment fuel s').2.2.PQgetResult.2.m_cancelled moment
        cancelledOnDiscard := discard }) on busy here copy]
      simp only [after]
    · exact (takenServed taken served' plain).1
    · exact (takenServed taken served' plain).2
    · intro unseen stays
      obtain ⟨outs, before, error, told⟩ := behind (Nat.le_succ _) unseen
      obtain ⟨split, -⟩ := taken.fine stays
      rw [results, ← copies.results, split, (copyHead copy _).1] at before
      rw [results, ← copies.results, split, (copyHead copy _).2] at error
      exact ⟨outs, before, error, toldSame told rfl rfl rfl⟩

theorem failsProceeds (bad : s.looked.consumes ≠ 1) {fuel : ℕ} :
    Proceeds moment eventOnCancellation resultToRetrieve all fuel s (turnAnswers moment resultToRetrieve fuel s st)
      (turn eventOnCancellation resultToRetrieve (turnAnswers moment resultToRetrieve fuel s st).1 st) := by
  obtain ⟨-, broken⟩ := consumedBad documented bad
  simp only [turnAnswers, bad, ne_eq, not_false_eq_true, if_true]
  rw [turnFails bad]
  rcases cancelled : s.looked.consumed.m_cancelled moment
  · exact brokenCloses (failedEnds _ _ cancelled broken) broken
  · exact brokenCloses (cancelledEnds _ cancelled (.inl broken)) broken

theorem turnProceeds (eventOnCancellation : Bool) (course : Course moment resultToRetrieve all s st) (fuel : ℕ) :
    Proceeds moment eventOnCancellation resultToRetrieve all fuel s (turnAnswers moment resultToRetrieve fuel s st)
      (turn eventOnCancellation resultToRetrieve (turnAnswers moment resultToRetrieve fuel s st).1 st) := by
  by_cases ok : s.looked.consumes = 1
  case neg => exact failsProceeds documented ok
  obtain ⟨working, calm, copying, looks, results, waits, size, less⟩ := consumedOk documented ok
  replace copying : s.looked.consumed.copying = false := copying.trans course.copying
  have served : Served s.looked.consumed.results := results ▸ course.served
  simp only [turnAnswers, ok, ne_eq, not_true, if_false]
  by_cases busy : s.looked.consumed.PQisBusy = true
  · simp only [busy, if_true]
    rw [turnBusy rfl rfl]
    refine ⟨less (waits (documented.busy _ busy)), copying, served, fun unseen _ => ?_⟩
    obtain ⟨same, outs, before, first, told⟩ :=
      courseTold course working (Nat.lt_of_lt_of_eq (Nat.lt_succ_self _) looks.symm) unseen
    rw [results, same]
    · exact ⟨outs, before, first, told.count, told.result, told.lastResult⟩
    · rfl
  simp only [busy, if_false, Bool.false_eq_true]
  have later : s.looks < s.looked.consumed.looks := Nat.lt_of_lt_of_eq (Nat.lt_succ_self _) looks.symm
  rcases got : s.looked.consumed.PQgetResult.1 with _ | res
  · obtain ⟨idle, -, none_⟩ := getResultNone documented copying calm got
    simp only [endAnswers]
    rw [turnEnds rfl rfl rfl]
    refine closesFor (finishCloses _ (.inr idle)) fun unseen _ => ?_
    obtain ⟨same, outs, before, first, told⟩ := courseTold course working (later.trans (Nat.lt_succ_self _)) unseen
    have nothing : s.results = [] := results.symm.trans none_
    rw [nothing] at before first
    rw [same]
    · exact toldAnswer (toldSame told rfl rfl rfl) (before.trans (List.append_nil _)) first
    · rfl
  obtain ⟨taken, shorter⟩ := getResultSome documented copying calm got
  generalize s.looked.consumed.PQgetResult.2 = s' at taken shorter
  simp only
  have less' : s'.size < s.size := shorter.trans_le size
  have later' : s.looks < s'.looks := later.trans_eq taken.looks.symm
  have left (stays : s'.failed = false) : s.results = res :: s'.results :=
    results.symm.trans (taken.fine stays).1
  by_cases error : res.status.isError = true
  · have unheld := takenServed taken served (errorNoCopy error)
    simp only [error, if_true]
    refine errProceeds documented (t := { quiet (s.m_cancelled moment) with res := some res }) course
      working rfl rfl rfl error unheld.1 left ?_ later' less'
    cases stays : s'.failed with
    | false =>
      have served := left stays ▸ course.served
      exact served.2.1 error
    | true =>
      rw [(taken.broken stays).2.1]
      simp
  have stays : s'.failed = false := by
    by_contra other
    exact error ((taken.broken (Bool.eq_true_of_not_eq_false other)).1 ▸ rfl)
  have fine : res.status.isError = false := Bool.eq_false_iff.mpr error
  simp only [fine, Bool.false_eq_true, if_false]
  by_cases copy : res.status = .copyOut
  · simp only [copy, if_true]
    exact copyProceeds documented course working rfl rfl rfl rfl copy rfl (left stays) stays later' less'
  · simp only [copy, if_false]
    have served := left stays ▸ course.served
    by_cases copyIn : res.status = .copyIn
    · simp only [copyIn, if_true]
      obtain ⟨same, ended, size⟩ := documented.copyEnded s'.conn
      exact plainProceeds s'.PQputCopyEnd course working rfl rfl rfl rfl fine copy
        ((left stays).trans (congrArg (res :: ·) same.results.symm)) ended later' (size.trans_lt less')
    · simp only [copyIn, if_false]
      refine plainProceeds s' course working rfl rfl rfl rfl fine copy (left stays) ?_ later' less'
      rw [(taken.fine stays).2, notCopy copy copyIn served.1]

theorem loopCloses (eventOnCancellation : Bool) (course : Course moment resultToRetrieve all s st) (fuel : ℕ) :
    match loop eventOnCancellation resultToRetrieve
      (exchange moment eventOnCancellation resultToRetrieve fuel s st).1 st with
    | some r => Closes moment eventOnCancellation (answer resultToRetrieve all) r
        (exchange moment eventOnCancellation resultToRetrieve fuel s st).2
    | none => fuel ≤ s.size + 1 ∨
        ∃ t ∈ (exchange moment eventOnCancellation resultToRetrieve fuel s st).1, Waits t.copy := by
  induction fuel generalizing s st with
  | zero => exact .inl (Nat.zero_le _)
  | succ fuel ih =>
    have next := turnProceeds documented eventOnCancellation course fuel
    unfold exchange
    dsimp only
    rcases turned : turn eventOnCancellation resultToRetrieve (turnAnswers moment resultToRetrieve fuel s st).1 st with
      st' | r | _ <;> rw [turned] at next <;> simp only [loop, turned]
    · have rest := ih next.2
      generalize loop eventOnCancellation resultToRetrieve _ _ = after at rest ⊢
      cases after with
      | some r => exact rest
      | none =>
        refine rest.imp (fun enough => ?_) fun ⟨t, mem, waits⟩ => ⟨t, List.mem_cons_of_mem _ mem, waits⟩
        have := next.1
        omega
    · exact next
    · exact next.imp (fun enough => Nat.succ_le_succ enough) fun waits => ⟨_, List.mem_cons_self, waits⟩

end Course

section Stuck
variable {moment : Option ℕ} {eventOnCancellation : Bool} {resultToRetrieve : ℤ} {s : Session lib} {st : State}

theorem drainStep (moment : Option ℕ) (s : Session lib) :
    (∃ asked, ∀ fuel, drainAnswers moment (fuel + 1) s = asked) ∨
      ∃ res s', ∀ fuel, drainAnswers moment (fuel + 1) s =
        (⟨1, false, some res⟩ :: (drainAnswers moment fuel s').1, (drainAnswers moment fuel s').2) := by
  by_cases ok : s.consumes = 1
  · simp only [drainAnswers, ok, ne_eq, not_true, if_false]
    cases s.consumed.PQgetResult.1 with
    | none => exact .inl ⟨_, fun _ => rfl⟩
    | some res => exact .inr ⟨res, _, fun _ => rfl⟩
  · simp only [drainAnswers, ok, ne_eq, not_false_eq_true, if_true]
    exact .inl ⟨_, fun _ => rfl⟩

theorem copyStep (documented : lib.Documented) (moment : Option ℕ) (eventOnCancellation : Bool) (s : Session lib) :
    (∃ asked, ¬Waits asked.1 ∧ ∀ fuel, copyAnswers moment (fuel + 1) s = asked) ∨
      ∃ c s', (c.rc = 0 ∧ c.cancelled = true → s.copyRc = 0 ∧ s.m_cancelled moment = true) ∧
        (∀ fuel, copyAnswers moment (fuel + 1) s =
          (c :: (copyAnswers moment fuel s').1, (copyAnswers moment fuel s').2)) ∧
        ∀ st, ∃ st', ∀ cs, copyOut eventOnCancellation (c :: cs) st = copyOut eventOnCancellation cs st' := by
  by_cases ends : s.copyRc < 0
  · simp only [copyAnswers, ends, if_true]
    refine .inl ⟨_, ?_, fun _ => rfl⟩
    rintro ⟨c, mem, none_, cancelled⟩
    cases List.mem_singleton.mp mem
    cases cancelled
  have same (none_ : s.copyRc = 0) : s.copyTaken = s := by
    obtain ⟨-, same, -⟩ | ⟨positive, -⟩ := (copyTakenMore documented (not_lt.mp ends)).2.2.2
    · exact same
    · omega
  simp only [copyAnswers, ends, if_false]
  by_cases reads : (!s.copyTaken.m_cancelled moment && decide (s.copyRc = 0)) = true
  · obtain ⟨calm, none_⟩ : s.copyTaken.m_cancelled moment = false ∧ s.copyRc = 0 := by simpa using reads
    simp only [reads, if_true]
    by_cases broken : s.copyTaken.looked.consumes = 0
    · simp only [broken, if_true]
      refine .inl ⟨_, ?_, fun _ => rfl⟩
      rintro ⟨c, mem, -, cancelled⟩
      cases List.mem_singleton.mp mem
      cases cancelled
    · simp only [broken, if_false]
      refine .inr ⟨⟨s.copyRc, false, s.copyTaken.looked.consumes, false, false⟩, _, ?_, fun _ => rfl, fun st => ?_⟩
      · exact fun both => Bool.noConfusion both.2
      · exact ⟨st, fun cs => by simp [copyOut, none_, broken]⟩
  · simp only [reads, Bool.false_eq_true, if_false]
    refine .inr ⟨⟨s.copyRc, s.copyTaken.m_cancelled moment, 1, false, false⟩, _, fun both => ⟨both.1, ?_⟩, fun _ => rfl,
      fun st => ?_⟩
    · rw [← same both.1]
      exact both.2
    · rcases cancelled : s.copyTaken.m_cancelled moment
      · have none_ : s.copyRc ≠ 0 := by simpa [cancelled] using reads
        exact ⟨_, fun cs => by simp [copyOut, ends, none_]; rfl⟩
      · exact ⟨_, fun cs => by simp [copyOut, ends]; rfl⟩

theorem staysStuck (documented : lib.Documented) (cancelled : s.m_cancelled moment = true) (none_ : s.copyRc = 0)
    (fuel : ℕ) (st : State) :
    copyOut eventOnCancellation (copyAnswers moment fuel s).1 st = .waiting := by
  induction fuel generalizing s st with
  | zero => rfl
  | succ fuel ih =>
    have same : s.copyTaken = s := by
      obtain ⟨-, same, -⟩ | ⟨positive, -⟩ := (copyTakenMore documented none_.ge).2.2.2
      · exact same
      · omega
    have still : s.looked.m_cancelled moment = true := by
      cases moment with
      | none => cases cancelled
      | some look => exact decide_eq_true ((of_decide_eq_true cancelled).trans (Nat.le_succ _))
    simp only [copyAnswers, none_, lt_irrefl, if_false, same, cancelled, Bool.not_true, Bool.false_and,
      Bool.false_eq_true, copyOut, if_true]
    exact ih still none_ _

theorem copyWaits (documented : lib.Documented) {fuel : ℕ} (waits : Waits (copyAnswers moment fuel s).1) (more : ℕ)
    (st : State) :
    copyOut eventOnCancellation (copyAnswers moment more s).1 st = .waiting := by
  induction fuel generalizing s st more with
  | zero =>
    obtain ⟨c, mem, -⟩ := waits
    cases mem
  | succ fuel ih =>
    rcases copyStep documented moment eventOnCancellation s with ⟨asked, calm, ends⟩ | ⟨c, s', here, goesOn, does⟩
    · rw [ends] at waits
      exact (calm waits).elim
    · rw [goesOn] at waits
      obtain ⟨c', mem, waits⟩ := waits
      rcases List.mem_cons.mp mem with rfl | mem
      · exact staysStuck documented (here waits).2 (here waits).1 more st
      · cases more with
        | zero => rfl
        | succ more =>
          obtain ⟨st', next⟩ := does st
          rw [goesOn, next]
          exact ih ⟨c', mem, waits⟩ more st'

theorem drainSame (fuel more : ℕ) (s : Session lib) (last last' : Bool) (st : State) :
    drain eventOnCancellation last (drainAnswers moment fuel s).1 st = .waiting ∨
      drain eventOnCancellation last' (drainAnswers moment more s).1 st = .waiting ∨
      drainAnswers moment fuel s = drainAnswers moment more s := by
  induction fuel generalizing s st more with
  | zero => exact .inl rfl
  | succ fuel ih =>
    cases more with
    | zero => exact .inr (.inl rfl)
    | succ more =>
      rcases drainStep moment s with ⟨asked, ends⟩ | ⟨res, s', goesOn⟩
      · exact .inr (.inr ((ends fuel).trans (ends more).symm))
      · rw [goesOn, goesOn]
        simp only [drain, ne_eq, not_true, if_false]
        refine (ih more s' (st.got.clears (st.handle res))).imp_right (Or.imp_right fun same => ?_)
        rw [same]

theorem copySame (documented : lib.Documented) (moment : Option ℕ) (eventOnCancellation : Bool) (fuel more : ℕ)
    (s : Session lib) (st : State) :
    copyOut eventOnCancellation (copyAnswers moment fuel s).1 st = .waiting ∨
      copyOut eventOnCancellation (copyAnswers moment more s).1 st = .waiting ∨
      copyAnswers moment fuel s = copyAnswers moment more s := by
  induction fuel generalizing s st more with
  | zero => exact .inl rfl
  | succ fuel ih =>
    cases more with
    | zero => exact .inr (.inl rfl)
    | succ more =>
      rcases copyStep documented moment eventOnCancellation s with ⟨asked, -, ends⟩ | ⟨c, s', -, goesOn, does⟩
      · exact .inr (.inr ((ends fuel).trans (ends more).symm))
      · obtain ⟨st', next⟩ := does st
        rw [goesOn, goesOn]
        simp only [next]
        refine (ih more s' st').imp_right (Or.imp_right fun same => ?_)
        rw [same]

theorem copiedFields (moment : Option ℕ) (resultToRetrieve : ℤ) (fuel : ℕ) (t : Turn) (st : State) (s : Session lib) :
    let asked := (copiedAnswers moment resultToRetrieve fuel t st s).1
    asked.consumed = t.consumed ∧ asked.busy = t.busy ∧ asked.res = t.res ∧ asked.cancelled = t.cancelled ∧
      asked.copy = (copyAnswers moment fuel s).1 := by
  intro asked
  simp only [asked, copiedAnswers]
  split_ifs
  · split
    · exact ⟨rfl, rfl, rfl, rfl, rfl⟩
    · rename_i res _
      obtain ⟨discard, turn_⟩ := keepAnswersTurn moment resultToRetrieve
        { t with copy := (copyAnswers moment fuel s).1, afterCopy := some res } st
        (copyAnswers moment fuel s).2.2.PQgetResult.2
      rw [turn_]
      exact ⟨rfl, rfl, rfl, rfl, rfl⟩
  · exact ⟨rfl, rfl, rfl, rfl, rfl⟩

theorem copiedWaits {fuel : ℕ} {t : Turn} (on : t.consumed = 1) (busy : t.busy = false) {res : PGresult}
    (here : t.res = some res) (copy : res.status = .copyOut) {s' : Session lib} {st₀ : State}
    (waits : copyOut eventOnCancellation (copyAnswers moment fuel s').1
      { gotten t.cancelled res st with rc := Status.copyOut.code } = .waiting) :
    turn eventOnCancellation resultToRetrieve (copiedAnswers moment resultToRetrieve fuel t st₀ s').1 st =
      .waiting := by
  obtain ⟨consumed, busy_, res_, cancelled, copy_⟩ :=
    copiedFields moment resultToRetrieve fuel t st₀ s'
  rw [turnCopies (consumed.trans on) (busy_.trans busy) (res_.trans here) copy, cancelled, copy_, waits]

theorem turnStep (moment : Option ℕ) (resultToRetrieve : ℤ) (s : Session lib) (st : State) :
    (∃ asked, asked.1.copy = [] ∧ ∀ fuel, turnAnswers moment resultToRetrieve fuel s st = asked) ∨
      (∃ (t : Turn) (res : PGresult) (s' : Session lib), (t.consumed = 1 ∧ t.busy = false ∧ t.res = some res) ∧
      res.status.isError = true ∧ t.copy = [] ∧
        ∀ fuel, turnAnswers moment resultToRetrieve fuel s st = ({ t with
          drain := (drainAnswers moment fuel s').1
          cancelledAtEnd := (drainAnswers moment fuel s').2.1 }, (drainAnswers moment fuel s').2.2)) ∨
      ∃ (t : Turn) (res : PGresult) (st₀ : State) (s' : Session lib),
        (t.consumed = 1 ∧ t.busy = false ∧ t.res = some res) ∧ res.status = .copyOut ∧
        ∀ fuel, turnAnswers moment resultToRetrieve fuel s st =
          copiedAnswers moment resultToRetrieve fuel t st₀ s' := by
  by_cases ok : s.looked.consumes = 1
  · by_cases busy : s.looked.consumed.PQisBusy = true
    · simp only [turnAnswers, ok, ne_eq, not_true, if_false, busy, if_true]
      exact .inl ⟨_, rfl, fun _ => rfl⟩
    rcases got : s.looked.consumed.PQgetResult.1 with _ | res
    · simp only [turnAnswers, ok, ne_eq, not_true, if_false, busy, got]
      exact .inl ⟨_, rfl, fun _ => rfl⟩
    simp only [turnAnswers, ok, ne_eq, not_true, if_false, busy, Bool.false_eq_true, got]
    by_cases error : res.status.isError = true
    · simp only [error, if_true]
      exact .inr (.inl ⟨{ quiet (s.m_cancelled moment) with res := some res }, res, _, ⟨rfl, rfl, rfl⟩, error, rfl,
        fun _ => rfl⟩)
    · simp only [error, if_false, Bool.false_eq_true]
      by_cases copy : res.status = .copyOut
      · simp only [copy, if_true]
        exact .inr (.inr ⟨{ quiet (s.m_cancelled moment) with res := some res }, res, _, _, ⟨rfl, rfl, rfl⟩, copy,
          fun _ => rfl⟩)
      · simp only [copy, if_false]
        refine .inl ⟨_, ?_, fun _ => rfl⟩
        generalize (if res.status = .copyIn then _ else _ : Session lib) = s'
        obtain ⟨discard, turn_⟩ := keepAnswersTurn moment resultToRetrieve
          { quiet (s.m_cancelled moment) with res := some res } (top (quiet (s.m_cancelled moment)) st) s'
        exact congrArg Turn.copy turn_
  · simp only [turnAnswers, ok, ne_eq, not_false_eq_true, if_true]
    exact .inl ⟨_, rfl, fun _ => rfl⟩

theorem turnWaits (documented : lib.Documented) {fuel : ℕ} (waits : Waits
    (turnAnswers moment resultToRetrieve fuel s st).1.copy) (more : ℕ) :
    turn eventOnCancellation resultToRetrieve (turnAnswers moment resultToRetrieve more s st).1 st = .waiting := by
  have nothing : ¬Waits [] := fun ⟨_, mem, _⟩ => by cases mem
  rcases turnStep moment resultToRetrieve s st with ⟨asked, empty, same⟩ | ⟨t, res, s', -, -, empty, same⟩ |
    ⟨t, res, st₀, s', ⟨on, busy, here⟩, copy, same⟩
  · rw [same, empty] at waits
    exact (nothing waits).elim
  · rw [same] at waits
    exact (nothing (empty ▸ waits)).elim
  · rw [same, (copiedFields moment resultToRetrieve fuel t st₀ s').2.2.2.2] at waits
    rw [same]
    exact copiedWaits on busy here copy (copyWaits documented waits more _)

theorem turnSame (documented : lib.Documented) (moment : Option ℕ) (eventOnCancellation : Bool) (resultToRetrieve : ℤ)
    (fuel more : ℕ) (s : Session lib)
    (st : State) :
    turn eventOnCancellation resultToRetrieve (turnAnswers moment resultToRetrieve fuel s st).1 st = .waiting ∨
      turn eventOnCancellation resultToRetrieve (turnAnswers moment resultToRetrieve more s st).1 st = .waiting ∨
      turnAnswers moment resultToRetrieve fuel s st = turnAnswers moment resultToRetrieve more s st := by
  rcases turnStep moment resultToRetrieve s st with ⟨asked, -, same⟩ | ⟨t, res, s', ⟨on, busy, here⟩, error, -, same⟩ |
    ⟨t, res, st₀, s', ⟨on, busy, here⟩, copy, same⟩
  · exact .inr (.inr ((same fuel).trans (same more).symm))
  · rw [same, same]
    rw [turnErrs _ _ { t with
        drain := (drainAnswers moment fuel s').1
        cancelledAtEnd := (drainAnswers moment fuel s').2.1 } _ on busy here error,
      turnErrs _ _ { t with
        drain := (drainAnswers moment more s').1
        cancelledAtEnd := (drainAnswers moment more s').2.1 } _ on busy here error]
    refine (drainSame fuel more s' _ _ _).imp_right (Or.imp_right fun alike => ?_)
    rw [alike]
  · rw [same, same]
    rcases copySame documented moment eventOnCancellation fuel more s'
      { gotten t.cancelled res st with rc := Status.copyOut.code } with waits | waits | alike
    · exact .inl (copiedWaits on busy here copy waits)
    · exact .inr (.inl (copiedWaits on busy here copy waits))
    · refine .inr (.inr ?_)
      unfold copiedAnswers
      rw [alike]

theorem stuckLoops (documented : lib.Documented) {fuel : ℕ} (stuck : ∃ t ∈
    (exchange moment eventOnCancellation resultToRetrieve fuel s st).1,
    Waits t.copy) (more : ℕ) : loop eventOnCancellation resultToRetrieve
      (exchange moment eventOnCancellation resultToRetrieve more s st).1 st = none := by
  induction fuel generalizing s st more with
  | zero =>
    obtain ⟨t, mem, -⟩ := stuck
    cases mem
  | succ fuel ih =>
    cases more with
    | zero => rfl
    | succ more =>
      obtain ⟨t, mem, waits⟩ := stuck
      have agree := turnSame documented moment eventOnCancellation resultToRetrieve fuel more s st
      unfold exchange at mem ⊢
      dsimp only at mem ⊢
      have head (waits : Waits (turnAnswers moment resultToRetrieve fuel s st).1.copy) :
          turn eventOnCancellation resultToRetrieve (turnAnswers moment resultToRetrieve more s st).1 st = .waiting :=
        turnWaits documented waits more
      rcases turned : turn eventOnCancellation resultToRetrieve
        (turnAnswers moment resultToRetrieve fuel s st).1 st with
        st' | r | _ <;> simp only [turned] at mem
      · rcases List.mem_cons.mp mem with rfl | mem
        · simp only [head waits, loop]
        · rcases agree with waiting | waiting | alike
          · cases turned.symm.trans waiting
          · simp only [waiting, loop]
          · rw [alike] at turned mem
            simp only [turned, loop]
            exact ih ⟨t, mem, waits⟩ more
      · cases List.mem_singleton.mp mem
        simp only [head waits, loop]
      · cases List.mem_singleton.mp mem
        simp only [head waits, loop]

end Stuck

section Execution
variable {eventOnCancellation : Bool} {query : Query}

theorem executeSends (sends : query.sends = true) (turns : List Turn) :
    Execute eventOnCancellation query turns = loop eventOnCancellation query.resultToRetrieve turns start := by
  unfold Query.sends at sends
  simp only [Bool.and_eq_true, Bool.not_eq_true'] at sends
  obtain ⟨⟨⟨connection, converted⟩, callable⟩, sent⟩ := sends
  simp [Execute, connection, converted, callable, sent]

theorem executeUnsent (eventOnCancellation : Bool) (unsent : query.sends = false) (turns : List Turn) : ∃ r,
    Execute eventOnCancellation query turns = some r ∧ r.event = some r.value ∧ r.value ≠ PGQ_EXECUTION_CANCELLED := by
  unfold Query.sends at unsent
  unfold Execute
  dsimp only
  split_ifs with connection converted callable sent
  · exact ⟨_, rfl, rfl, by simp [RaiseEvent, PGQ_CONN_LOST, PGQ_EXECUTION_CANCELLED]⟩
  · exact ⟨_, rfl, rfl, by simp [RaiseEvent, PGQ_STRING_INVALID, PGQ_EXECUTION_CANCELLED]⟩
  · exact ⟨_, rfl, rfl, by simp [RaiseEvent, PGQ_EXECUTION_CANCELLED]⟩
  · exact ⟨_, rfl, rfl, by simp [RaiseEvent, PGQ_ERROR_SEND_QUERY, PGQ_EXECUTION_CANCELLED]⟩
  · simp_all

theorem courseStarts (moment : Option ℕ) (resultToRetrieve : ℤ) {s : Session lib} (copying : s.copying = false)
    (served : Served s.results) : Course moment resultToRetrieve s.results s start where
  copying := copying
  served := served
  told _ _ := by
    refine ⟨[], rfl, rfl, rfl, ?_, ?_⟩
    · rw [(arrivedNone resultToRetrieve []).mpr rfl |>.1]
      rfl
    · rw [(arrivedNone resultToRetrieve []).mpr rfl |>.2]
      rfl

end Execution

section Examples

/- COPY data of which nothing comes with the first portion. -/
def copySession : Session Wire.library where
  conn := { arrived := [], coming := [[⟨.copyOut, 0, none⟩], [⟨.commandOk, 0, none⟩]], copying := false }
  looks := 0

end Examples

end PgAdmin.pgQueryThread
