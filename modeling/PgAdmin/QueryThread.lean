import PgAdmin.Handles
import Mathlib.Data.Int.Notation

/-! One query of the thread that runs queries in the background, from sending it to the event. What libpq answers and
when the cancellation is seen come from outside. -/
namespace PgAdmin.pgQueryThread
open Handles (Op)

/- ExecStatusType -/
inductive Status where
  | emptyQuery
  | commandOk
  | tuplesOk
  | copyOut
  | copyIn
  | badResponse
  | nonfatalError
  | fatalError
  | copyBoth
  | singleTuple
  | pipelineSync
  | pipelineAborted
  | tuplesChunk
  deriving DecidableEq

def Status.code : Status → ℤ
  | emptyQuery => 0
  | commandOk => 1
  | tuplesOk => 2
  | copyOut => 3
  | copyIn => 4
  | badResponse => 5
  | nonfatalError => 6
  | fatalError => 7
  | copyBoth => 8
  | singleTuple => 9
  | pipelineSync => 10
  | pipelineAborted => 11
  | tuplesChunk => 12

def Status.isError (status : Status) : Bool :=
  status = .nonfatalError || status = .fatalError || status = .badResponse

def PGQ_EXECUTION_CANCELLED : ℤ := -7
def PGQ_ERROR_CONSUME_INPUT : ℤ := -6
def PGQ_ERROR_SEND_QUERY : ℤ := -5
def PGQ_STRING_INVALID : ℤ := -2
def PGQ_CONN_LOST : ℤ := -1

def noOid : ℕ := 4294967295

structure PGresult where
  status : Status
  oid : ℕ
  cmdTuples : Option ℤ

structure Held where
  id : ℕ
  res : PGresult

structure Drain where
  consumed : ℤ
  cancelled : Bool
  res : Option PGresult

/- The same for COPY data. A buffer comes with a positive answer. -/
structure Copied where
  rc : ℤ
  cancelled : Bool
  consumed : ℤ
  cancelledOnFailure : Bool
  bad : Bool

/- The same for the main loop, in the order in which they are asked for: m_cancelled at the top, PQconsumeInput, and so
on. A turn asks only for some of them. -/
structure Turn where
  cancelled : Bool
  consumed : ℤ
  cancelledOnFailure : Bool
  bad : Bool
  busy : Bool
  res : Option PGresult
  drain : List Drain
  copy : List Copied
  afterCopy : Option PGresult
  cancelledOnKeep : Bool
  cancelledOnDiscard : Bool
  cancelledAtEnd : Bool

/- m_cancelled over the turn. -/
def Turn.flags (t : Turn) : List Bool :=
  t.cancelled :: t.cancelledOnFailure :: t.drain.map Drain.cancelled ++
    t.copy.flatMap (fun c => [c.cancelled, c.cancelledOnFailure]) ++
    [t.cancelledOnKeep, t.cancelledOnDiscard, t.cancelledAtEnd]

/- CancelExecution only sets m_cancelled. -/
def StaysCancelled (turns : List Turn) : Prop :=
  (turns.flatMap Turn.flags).Pairwise fun earlier later => earlier = true → later = true
instance (turns : List Turn) : Decidable (StaysCancelled turns) := by
  unfold StaysCancelled; infer_instance

structure State where
  result : Option Held
  lastResult : Option Held
  resultsRetrieved : ℕ
  connExecutionCancelled : Bool
  rc : ℤ
  rowsInserted : ℤ
  insertedOid : ℕ
  obtained : ℕ
  results : List (Op ℕ)
  copied : ℕ
  buffers : List (Op ℕ)

namespace State

def got (st : State) : State :=
  { st with obtained := st.obtained + 1, results := st.results ++ [.got st.obtained] }

def handle (st : State) (res : PGresult) : Held := ⟨st.obtained, res⟩

def reads (st : State) (h : Held) : State := { st with results := st.results ++ [.read h.id] }

def clears (st : State) (h : Held) : State := { st with results := st.results ++ [.clear h.id] }

def clearResult (st : State) : State :=
  match st.result with
  | none => st
  | some h => { st.clears h with result := none }

def clearLast (st : State) : State :=
  match st.lastResult with
  | none => st
  | some h => { st.clears h with lastResult := none }

def gotCopy (st : State) : State := { st with copied := st.copied + 1, buffers := st.buffers ++ [.got st.copied] }

def freeCopy (st : State) (buf : ℕ) : State := { st with buffers := st.buffers ++ [.read buf, .clear buf] }

end State

structure Returned where
  value : ℤ
  event : Option ℤ
  dataSet : Option Held
  state : State

def RaiseEvent (st : State) (retval : ℤ) : Returned := ⟨retval, some retval, none, st⟩

inductive Next where
  | again (st : State)
  | returned (r : Returned)
  | waiting

section Execute
variable (eventOnCancellation : Bool) (resultToRetrieve : ℤ)

def cancelledReturn (st : State) : Returned :=
  { value := PGQ_EXECUTION_CANCELLED
    event := if eventOnCancellation then some PGQ_EXECUTION_CANCELLED else none
    dataSet := none
    state := { st with rc := PGQ_EXECUTION_CANCELLED } }

def failedReturn (bad : Bool) (st : State) : Returned :=
  let rc := if bad then PGQ_CONN_LOST else PGQ_ERROR_CONSUME_INPUT
  RaiseEvent { st with rc := rc } rc

def succeed (dataSet : Option Held) (h : Held) (st : State) : Returned :=
  { value := 1
    event := some 1
    dataSet := dataSet
    state := { st.reads h with insertedOid := if h.res.oid = noOid then 0 else h.res.oid } }

/- out_of_consume_input_loop -/
def finish (cancelledAtEnd : Bool) (st : State) : Returned :=
  if cancelledAtEnd then cancelledReturn eventOnCancellation st.clearResult
  else
    match st.result.or st.lastResult with
    | none => RaiseEvent { st with rc := Status.fatalError.code } Status.fatalError.code
    | some h =>
      let st := { st.reads h with result := some h, rc := h.res.status.code }
      if h.res.status = .tuplesOk then succeed (some h) h st
      else if h.res.status = .commandOk then
        succeed none h { st.reads h with rowsInserted := h.res.cmdTuples.getD st.rowsInserted }
      else if h.res.status.isError then RaiseEvent (st.reads h).clearResult h.res.status.code
      else succeed none h st

def drain (cancelledAtEnd : Bool) : List Drain → State → Next
  | [], _ => .waiting
  | d :: ds, st =>
    if d.consumed ≠ 1 then
      if d.cancelled then .returned (cancelledReturn eventOnCancellation st.clearResult)
      else .returned (finish eventOnCancellation cancelledAtEnd st)
    else match d.res with
      | none => .returned (finish eventOnCancellation cancelledAtEnd st)
      | some res => drain cancelledAtEnd ds (st.got.clears (st.handle res))

def copyOut : List Copied → State → Next
  | [], _ => .waiting
  | c :: cs, st =>
    if c.rc < 0 then .again st
    else
      let buf := st.copied
      let st := if 0 < c.rc then st.gotCopy else st
      if c.cancelled then copyOut cs { st with connExecutionCancelled := true }
      else
        let st := if 0 < c.rc then st.freeCopy buf else st
        if c.rc = 0 ∧ c.consumed = 0 then
          if c.cancelledOnFailure then .returned (cancelledReturn eventOnCancellation st.clearResult)
          else .returned (failedReturn c.bad st)
        else copyOut cs st

def discard (t : Turn) (st : State) : State :=
  match st.lastResult with
  | none => st
  | some last => (if t.cancelledOnDiscard then st else st.reads last).clearLast

def keep (t : Turn) (h : Held) (st : State) : State :=
  let st := { st with resultsRetrieved := st.resultsRetrieved + 1 }
  if !t.cancelledOnKeep && (st.resultsRetrieved : ℤ) = resultToRetrieve then
    { st.reads h with result := some h, insertedOid := h.res.oid }
  else { discard t st with lastResult := some h }

def top (t : Turn) (st : State) : State :=
  if t.cancelled ∧ st.rc ≠ PGQ_EXECUTION_CANCELLED then
    { st with connExecutionCancelled := true, rc := PGQ_EXECUTION_CANCELLED }.clearLast
  else st

def turn (t : Turn) (st : State) : Next :=
  let st := top t st
  if t.consumed ≠ 1 then
    if t.cancelledOnFailure then .returned (cancelledReturn eventOnCancellation st.clearLast)
    else .returned (failedReturn t.bad st)
  else
    let st := { st with rc := 1 }
    if t.busy then .again st
    else match t.res with
      | none => .returned (finish eventOnCancellation t.cancelledAtEnd st)
      | some res =>
        let h := st.handle res
        let st := st.got.reads h
        if res.status.isError then drain eventOnCancellation t.cancelledAtEnd t.drain { st with result := some h }
        else if res.status = .copyOut then
          match copyOut eventOnCancellation t.copy { st with rc := Status.copyOut.code } with
          | .again st => match t.afterCopy with
            | none => .returned (finish eventOnCancellation t.cancelledAtEnd st)
            | some res => .again (keep resultToRetrieve t (st.handle res) st.got)
          | .returned r => .returned r
          | .waiting => .waiting
        else
          let st := if res.status = .copyIn then { st with rc := Status.copyIn.code } else st
          .again (keep resultToRetrieve t h st)

def loop : List Turn → State → Option Returned
  | [], _ => none
  | t :: turns, st =>
    match turn eventOnCancellation resultToRetrieve t st with
    | .again st => loop turns st
    | .returned r => some r
    | .waiting => none

end Execute

/- What is asked before the loop. -/
structure Query where
  connectionOk : Bool
  converted : Bool
  params : Bool
  useCallable : Bool
  sent : Bool
  resultToRetrieve : ℤ

def start : State where
  result := none
  lastResult := none
  resultsRetrieved := 0
  connExecutionCancelled := false
  rc := -1
  rowsInserted := -1
  insertedOid := noOid
  obtained := 0
  results := []
  copied := 0
  buffers := []

def Execute (eventOnCancellation : Bool) (query : Query) (turns : List Turn) : Option Returned :=
  let failed (rc : ℤ) := some (RaiseEvent { start with rc := rc } rc)
  if !query.connectionOk then failed PGQ_CONN_LOST
  else if !query.converted then failed PGQ_STRING_INVALID
  else if query.params && query.useCallable then failed (-1)
  else if !query.sent then failed PGQ_ERROR_SEND_QUERY
  else loop eventOnCancellation query.resultToRetrieve turns start

end PgAdmin.pgQueryThread
