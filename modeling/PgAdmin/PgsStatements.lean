import PgAdmin.PgsRecord

/-! Statements of pgScript and how they are run: statement lists report an exception on its way
out, IF and WHILE pass it on, and the program swallows it. The flag m_exception_thrown is shared
by all statement lists. Calls and turns of a WHILE run on fuel; a run that used it up, or that
waits for the output for ever, is still running. -/
namespace PgAdmin.PgsStatements
open PgsObjects Substitution

/- A pgsException, or another std::exception with its what(). -/
inductive Signal where
  | pgs (x : PgsException)
  | unknown (what : Text)
  deriving DecidableEq, Repr

def Signal.isJump : Signal → Bool
  | .pgs .pgsBreakException => true
  | .pgs .pgsContinueException => true
  | _ => false

/- What is written to m_cout; an error message carries the line it names, if it names one. -/
inductive Entry where
  | text (t : Text)
  | error (message : Text) (line : Option ℤ)
  deriving DecidableEq, Repr

def Entry.isError : Entry → Bool
  | .error _ _ => true
  | .text _ => false

structure World (σ : Type) where
  vars : PgsVarMap
  host : σ
  output : List Entry
  locked : Bool
  exceptionThrown : Bool
  lastErrorLine : ℤ

/- Expressions may assign, draw, query the server (which locks the output for a while) and never
come back; they raise neither break nor continue. -/
structure Expression (σ α : Type) where
  value : Text
  eval : Bool → PgsVarMap → σ → Option (Except Signal α × PgsVarMap × σ × List Text)
  raisesNoJump : ∀ {locked vars host x out}, eval locked vars host = some (.error x, out) →
    x.isJump = false

def Expression.constant {σ α : Type} (value : Text) (a : α) : Expression σ α where
  value := value
  eval _ vars host := some (.ok a, vars, host, [])
  raisesNoJump same := nomatch same

def Expression.failing {σ α : Type} (value : Text) (x : Signal) (noJump : x.isJump = false) :
    Expression σ α where
  value := value
  eval _ vars host := some (.error x, vars, host, [])
  raisesNoJump same := by cases same; exact noJump

inductive Stmt (σ : Type) where
  | expressionStmt (line : ℤ) (var : Expression σ Unit)
  | printStmt (line : ℤ) (var : Expression σ Text)
  | assertStmt (line : ℤ) (cond : Expression σ Bool)
  | breakStmt (line : ℤ)
  | continueStmt (line : ℤ)
  | declareRecordStmt (line : ℤ) (record : Text) (columns : List Text)
  | ifStmt (line : ℤ) (cond : Expression σ Bool) (yes no : Stmt σ)
  | whileStmt (line : ℤ) (cond : Expression σ Bool) (body : Stmt σ)
  | stmtList (line : ℤ) (list : List (Stmt σ))

def Stmt.line {σ : Type} : Stmt σ → ℤ
  | expressionStmt line _ => line
  | printStmt line _ => line
  | assertStmt line _ => line
  | breakStmt line => line
  | continueStmt line => line
  | declareRecordStmt line _ _ => line
  | ifStmt line _ _ _ => line
  | whileStmt line _ _ => line
  | stmtList line _ => line

inductive Ran (σ ε α : Type) where
  | ended (result : Except ε α) (w : World σ)
  | running (w : World σ)

/- m_app, when there is one, answers TestDestroy(). -/
structure Setting (σ : Type) where
  ctype : Ctype
  app : Option (σ → Bool × σ)

variable {σ ε δ α β : Type}

namespace Ran

def world : Ran σ ε α → World σ
  | ended _ w => w
  | running w => w

def bind : Ran σ ε α → (α → World σ → Ran σ ε β) → Ran σ ε β
  | ended (.ok a) w, next => next a w
  | ended (.error x) w, _ => ended (.error x) w
  | running w, _ => running w

def mapError (f : ε → δ) : Ran σ ε α → Ran σ δ α
  | ended (.ok a) w => ended (.ok a) w
  | ended (.error x) w => ended (.error (f x)) w
  | running w => running w

end Ran

def World.write (w : World σ) (t : Text) : World σ := {w with output := w.output ++ [.text t]}

def Expression.run (e : Expression σ α) (w : World σ) : Ran σ Signal α :=
  match e.eval w.locked w.vars w.host with
  | none => .running w
  | some (result, vars, host, written) =>
    .ended result {w with vars := vars, host := host, output := w.output ++ written.map .text}

def lockOutput (setting : Setting σ) (w : World σ) : Ran σ ε Unit :=
  if setting.app.isSome then
    if w.locked then .running w else .ended (.ok ()) {w with locked := true}
  else .ended (.ok ()) w

def unlockOutput (setting : Setting σ) (w : World σ) : World σ :=
  if setting.app.isSome then {w with locked := false} else w

/- `if (m_app != 0 && m_app->TestDestroy()) throw pgsInterruptException();` -/
def testDestroy (setting : Setting σ) (w : World σ) : Ran σ Signal Unit :=
  match setting.app with
  | none => .ended (.ok ()) w
  | some test =>
    let answer := test w.host
    .ended (if answer.1 then .error (.pgs .pgsInterruptException) else .ok ())
      {w with host := answer.2}

def outException : Text := "[EXCEPTION] ".toList
def outError : Text := "[ERROR    ] ".toList
def outPgScript : Text := "[PGSCRIPT ] ".toList

def message : PgsException → Text
  | .pgsParameterException m =>
    outException ++ "Parameter Exception - Some parameters are invalid:\n".toList ++
      List.replicate outException.length ' ' ++ ">> ".toList ++
      replaceAll ['\n'] ('\n' :: List.replicate outException.length ' ') m
  | .pgsArithmeticException left right =>
    outException ++ "Arithmetic Exception - Operation impossible between '".toList ++ left ++
      "' and '".toList ++ right ++ "'".toList
  | .pgsCastException value type =>
    outException ++ "Cast Exception - Cannot convert '".toList ++ value ++ "' to '".toList ++ type ++
      "'".toList
  | .pgsAssertException m => outException ++ "Assert Exception - ".toList ++ m
  | .pgsInterruptException => outException ++ "pgScript interrupted".toList
  | .pgsBreakException => "BREAK".toList
  | .pgsContinueException => "CONTINUE".toList

def errorEntry (line : ℤ) : Signal → Entry
  | .pgs x => .error (message x) (some line)
  | .unknown what => .error (outError ++ "Unknown exception:\n".toList ++ what) none

def markReported (setting : Setting σ) (line : ℤ) (x : Signal) (w : World σ) : World σ :=
  {w with output := w.output ++ [errorEntry line x], exceptionThrown := true,
          lastErrorLine := if setting.app.isSome then line else w.lastErrorLine}

/- The catch clauses of pgsStmtList::eval, which throw again. -/
def report (setting : Setting σ) (line : ℤ) (x : Signal) (w : World σ) : Ran σ Signal Unit :=
  if w.exceptionThrown ∨ x.isJump then .ended (.error x) w
  else (lockOutput setting w).bind fun _ w =>
    .ended (.error x) (unlockOutput setting (markReported setting line x w))

def catchAt (setting : Setting σ) (line : ℤ) : Ran σ Signal Unit → Ran σ Signal Unit
  | .ended (.error x) w => report setting line x w
  | ran => ran

def element (setting : Setting σ) (evalStmt : Stmt σ → World σ → Ran σ Signal Unit)
    (current : Stmt σ) (w : World σ) : Ran σ Signal Unit :=
  catchAt setting current.line ((evalStmt current w).bind fun _ w => testDestroy setting w)

def evalList (setting : Setting σ) (evalStmt : Stmt σ → World σ → Ran σ Signal Unit) :
    List (Stmt σ) → World σ → Ran σ Signal Unit
  | [], w => .ended (.ok ()) w
  | current :: rest, w =>
    (element setting evalStmt current w).bind fun _ w => evalList setting evalStmt rest w

/- Only a pgsException unlocks the output. -/
def printHeld (setting : Setting σ) (var : Expression σ Text) (w : World σ) : Ran σ Signal Unit :=
  match var.run (w.write outPgScript) with
  | .ended (.ok t) w => .ended (.ok ()) (unlockOutput setting (w.write (t ++ ['\n'])))
  | .ended (.error (.pgs x)) w => .ended (.error (.pgs x)) (unlockOutput setting w)
  | .ended (.error (.unknown what)) w => .ended (.error (.unknown what)) w
  | .running w => .running w

def evalPrint (setting : Setting σ) (var : Expression σ Text) (w : World σ) : Ran σ Signal Unit :=
  (lockOutput setting w).bind fun _ w => printHeld setting var w

def evalAssert (cond : Expression σ Bool) (w : World σ) : Ran σ Signal Unit :=
  (cond.run w).bind fun holds w =>
    .ended (if holds then .ok () else .error (.pgs (.pgsAssertException cond.value))) w

def setColumnNames (ctype : Ctype) : ℕ → List Text → PgsRecord → PgsRecord
  | _, [], r => r
  | i, name :: names, r =>
    setColumnNames ctype (i + 1) names (r.setColumnName ctype (UInt16.ofNat i) name).2

def evalDeclareRecord (setting : Setting σ) (record : Text) (columns : List Text) (w : World σ) :
    Ran σ Signal Unit :=
  let declared := setColumnNames setting.ctype 0 columns (.create (UInt16.ofNat columns.length))
  .ended (.ok ()) {w with vars := w.vars.set record (.record declared)}

def eval (setting : Setting σ) : ℕ → Stmt σ → World σ → Ran σ Signal Unit
  | 0, _, w => .running w
  | fuel + 1, stmt, w =>
    match stmt with
    | .expressionStmt _ var => var.run w
    | .printStmt _ var => evalPrint setting var w
    | .assertStmt _ cond => evalAssert cond w
    | .breakStmt _ => .ended (.error (.pgs .pgsBreakException)) w
    | .continueStmt _ => .ended (.error (.pgs .pgsContinueException)) w
    | .declareRecordStmt _ record columns => evalDeclareRecord setting record columns w
    | .ifStmt _ cond yes no =>
      (cond.run w).bind fun holds w => eval setting fuel (if holds then yes else no) w
    | .whileStmt line cond body =>
      let again := fun w : World σ =>
        (testDestroy setting w).bind fun _ w => eval setting fuel (.whileStmt line cond body) w
      (cond.run w).bind fun holds w =>
        if holds then
          match eval setting fuel body w with
          | .ended (.error (.pgs .pgsBreakException)) w => .ended (.ok ()) w
          | .ended (.error (.pgs .pgsContinueException)) w => again w
          | .ended (.error x) w => .ended (.error x) w
          | .ended (.ok _) w => again w
          | .running w => .running w
        else .ended (.ok ()) w
    | .stmtList _ list => evalList setting (eval setting fuel) list w

/- pgsProgram::eval. -/
def evalProgram (setting : Setting σ) (fuel : ℕ) (program : List (Stmt σ)) (w : World σ) :
    Ran σ Signal Unit :=
  match eval setting fuel (.stmtList 0 program) w with
  | .ended _ w => .ended (.ok ()) {w with exceptionThrown := false}
  | .running w => .running w

end PgAdmin.PgsStatements
