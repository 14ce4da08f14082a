import PgAdmin.PgsStatements

/-! Which error a run reports. `follow` runs the same statements without reporting and remembers,
for an exception on its way out, the lines of the list elements it leaves, the innermost first.
The code writes one message for a failure, with the first of these lines, and nothing before. -/
namespace PgAdmin.PgsStatements
open PgsObjects

variable {σ ε δ α β : Type}

abbrev Failure := Signal × List ℤ

def raise (x : Signal) : Failure := (x, [])

def leave (line : ℤ) (x : Failure) : Failure := (x.1, x.2 ++ [line])

def followList (setting : Setting σ) (followStmt : Stmt σ → World σ → Ran σ Failure Unit) :
    List (Stmt σ) → World σ → Ran σ Failure Unit
  | [], w => .ended (.ok ()) w
  | current :: rest, w =>
    (((followStmt current w).bind fun _ w => (testDestroy setting w).mapError raise).mapError
      (leave current.line)).bind fun _ w => followList setting followStmt rest w

def follow (setting : Setting σ) : ℕ → Stmt σ → World σ → Ran σ Failure Unit
  | 0, _, w => .running w
  | fuel + 1, stmt, w =>
    match stmt with
    | .ifStmt _ cond yes no =>
      ((cond.run w).mapError raise).bind fun holds w =>
        follow setting fuel (if holds then yes else no) w
    | .whileStmt line cond body =>
      let again := fun w : World σ => ((testDestroy setting w).mapError raise).bind fun _ w =>
        follow setting fuel (.whileStmt line cond body) w
      ((cond.run w).mapError raise).bind fun holds w =>
        if holds then
          match follow setting fuel body w with
          | .ended (.error (.pgs .pgsBreakException, _)) w => .ended (.ok ()) w
          | .ended (.error (.pgs .pgsContinueException, _)) w => again w
          | .ended (.error x) w => .ended (.error x) w
          | .ended (.ok _) w => again w
          | .running w => .running w
        else .ended (.ok ()) w
    | .stmtList _ list => followList setting (follow setting fuel) list w
    | simple => (eval setting 1 simple w).mapError raise

def Quiet (w : World σ) : Prop := w.exceptionThrown = false ∧ w.locked = false

def errors (output : List Entry) : List Entry := output.filter Entry.isError

/- What the code does where `follow` does this. -/
def Matches (setting : Setting σ) : Ran σ Failure α → Ran σ Signal α → Prop
  | .running w, ran => ran = .running w
  | .ended (.ok a) w, ran => ran = .ended (.ok a) w ∧ Quiet w
  | .ended (.error (.unknown _, _)) _, _ => True
  | .ended (.error (.pgs x, path)) w, ran => Quiet w ∧
      ran = .ended (.error (.pgs x))
        (if (Signal.pgs x).isJump then w
         else match path with
          | [] => w
          | line :: _ => markReported setting line (.pgs x) w)

/-! Steps that report nothing leave a quiet world quiet, and write no error. -/

structure Unreported (w : World σ) (ran : Ran σ Signal α) : Prop where
  quiet : Quiet w → ∀ result last, ran = .ended result last →
    (∀ what, result ≠ .error (.unknown what)) → Quiet last
  errors : errors ran.world.output = errors w.output

@[simp] theorem errorsAppend (left right : List Entry) :
    errors (left ++ right) = errors left ++ errors right := List.filter_append ..

@[simp] theorem errorsTexts (texts : List Text) : errors (texts.map .text) = [] := by
  simp [errors, Entry.isError]

@[simp] theorem errorsText (t : Text) : errors [.text t] = [] := rfl

@[simp] theorem errorsError (m : Text) (line : Option ℤ) :
    errors [.error m line] = [.error m line] := rfl

@[simp] theorem errorsWrite (w : World σ) (t : Text) : errors (w.write t).output = errors w.output := by
  simp [World.write]

@[simp] theorem unlockOutputOutput (setting : Setting σ) (w : World σ) :
    (unlockOutput setting w).output = w.output := by
  unfold unlockOutput; split <;> rfl

theorem runUnreported (e : Expression σ α) (w : World σ) : Unreported w (e.run w) := by
  unfold Expression.run
  split
  · exact ⟨fun _ _ _ ended => (nomatch ended), rfl⟩
  · refine ⟨fun quiet _ _ ended _ => ?_, by simp [Ran.world]⟩
    cases ended
    exact quiet

theorem testDestroyUnreported (setting : Setting σ) (w : World σ) :
    Unreported w (testDestroy setting w) := by
  unfold testDestroy
  split
  · refine ⟨fun quiet _ _ ended _ => ?_, rfl⟩
    cases ended
    exact quiet
  · refine ⟨fun quiet _ _ ended _ => ?_, rfl⟩
    cases ended
    exact quiet

theorem runKeeps {e : Expression σ α} {w last : World σ} {result : Except Signal α}
    (ended : e.run w = .ended result last) :
    last.locked = w.locked ∧ last.exceptionThrown = w.exceptionThrown := by
  unfold Expression.run at ended
  split at ended
  · cases ended
  · cases ended
    exact ⟨rfl, rfl⟩

theorem unlockFree {setting : Setting σ} {w : World σ} (held : w.locked = setting.app.isSome) :
    (unlockOutput setting w).locked = false := by
  unfold unlockOutput
  split
  · rfl
  · rename_i none
    rw [held]
    exact Bool.eq_false_iff.mpr none

@[simp] theorem unlockOutputThrown (setting : Setting σ) (w : World σ) :
    (unlockOutput setting w).exceptionThrown = w.exceptionThrown := by
  unfold unlockOutput; split <;> rfl

theorem printHeldErrors (setting : Setting σ) (var : Expression σ Text) (w : World σ) :
    errors (printHeld setting var w).world.output = errors w.output := by
  have inner := (runUnreported var (w.write outPgScript)).errors
  rw [errorsWrite] at inner
  rw [← inner]
  unfold printHeld
  split <;> rename_i same <;> simp [same, Ran.world]

theorem printHeldQuiet {setting : Setting σ} {var : Expression σ Text} {w last : World σ}
    {result : Except Signal Unit} (held : w.locked = setting.app.isSome)
    (calm : w.exceptionThrown = false) (ended : printHeld setting var w = .ended result last)
    (known : ∀ what, result ≠ .error (.unknown what)) : Quiet last := by
  unfold printHeld at ended
  split at ended
  · rename_i t inner same
    have kept := runKeeps same
    cases ended
    refine ⟨?_, unlockFree ?_⟩
    · rw [unlockOutputThrown]
      exact kept.2.trans calm
    · exact kept.1.trans held
  · rename_i x inner same
    have kept := runKeeps same
    cases ended
    refine ⟨?_, unlockFree (kept.1.trans held)⟩
    rw [unlockOutputThrown]
    exact kept.2.trans calm
  · cases ended
    exact absurd rfl (known _)
  · cases ended

theorem printUnreported (setting : Setting σ) (var : Expression σ Text) (w : World σ) :
    Unreported w (evalPrint setting var w) := by
  unfold evalPrint lockOutput
  split
  · rename_i app
    split
    · exact ⟨fun _ _ _ ended => (nomatch ended), rfl⟩
    · exact ⟨fun quiet _ _ => printHeldQuiet app.symm quiet.1, printHeldErrors setting var _⟩
  · rename_i app
    refine ⟨fun quiet _ _ => printHeldQuiet ?_ quiet.1, printHeldErrors setting var _⟩
    rw [quiet.2]
    simpa using app

theorem assertUnreported (cond : Expression σ Bool) (w : World σ) :
    Unreported w (evalAssert cond w) := by
  have inner := runUnreported cond w
  unfold evalAssert
  cases ran : cond.run w with
  | running last =>
    rw [ran] at inner
    exact ⟨fun _ _ _ ended => (nomatch ended), inner.errors⟩
  | ended result last =>
    rw [ran] at inner
    cases result with
    | error x =>
      refine ⟨fun quiet _ _ same known => ?_, inner.errors⟩
      cases same
      exact inner.quiet quiet _ _ rfl fun what same => known what (by cases same; rfl)
    | ok holds =>
      refine ⟨fun quiet _ _ same _ => ?_, inner.errors⟩
      cases same
      exact inner.quiet quiet _ _ rfl fun what same => nomatch same

/-! The code follows `follow`. -/

theorem matchesRaise {setting : Setting σ} {w : World σ} {ran : Ran σ Signal α} (quiet : Quiet w)
    (unreported : Unreported w ran) : Matches setting (ran.mapError raise) ran := by
  cases ran with
  | running last => rfl
  | ended result last =>
    have known := unreported.quiet quiet result last rfl
    cases result with
    | ok a => exact ⟨rfl, known fun _ same => nomatch same⟩
    | error x =>
      cases x with
      | unknown what => trivial
      | pgs x =>
        refine ⟨known fun _ same => (nomatch same), ?_⟩
        split <;> rfl

theorem matchesBind {setting : Setting σ} {spec : Ran σ Failure α} {ran : Ran σ Signal α}
    {next : α → World σ → Ran σ Failure β} {next' : α → World σ → Ran σ Signal β}
    (first : Matches setting spec ran)
    (rest : ∀ a w, Quiet w → Matches setting (next a w) (next' a w)) :
    Matches setting (spec.bind next) (ran.bind next') := by
  cases spec with
  | running w =>
    cases first
    rfl
  | ended result w =>
    cases result with
    | ok a =>
      obtain ⟨rfl, quiet⟩ := first
      exact rest a w quiet
    | error x =>
      obtain ⟨x, path⟩ := x
      cases x with
      | unknown what => trivial
      | pgs x =>
        obtain ⟨quiet, rfl⟩ := first
        exact ⟨quiet, rfl⟩

theorem reportQuiet {setting : Setting σ} {line : ℤ} {x : Signal} {w : World σ} (quiet : Quiet w) :
    report setting line x w =
      .ended (.error x) (if x.isJump then w else markReported setting line x w) := by
  unfold report
  rw [quiet.1]
  by_cases jump : x.isJump = true
  · simp [jump]
  · simp only [jump, Bool.false_eq_true, or_self, if_false]
    unfold lockOutput unlockOutput
    split
    · simp [quiet.2, Ran.bind, markReported]
    · rfl

theorem reportAgain {setting : Setting σ} {line : ℤ} {x : Signal} {w : World σ}
    (thrown : w.exceptionThrown = true) : report setting line x w = .ended (.error x) w := by
  unfold report
  rw [if_pos (.inl thrown)]

theorem matchesElement {setting : Setting σ} {spec : Ran σ Failure Unit} {ran : Ran σ Signal Unit}
    (line : ℤ) (body : Matches setting spec ran) :
    Matches setting (spec.mapError (leave line)) (catchAt setting line ran) := by
  cases spec with
  | running w =>
    cases body
    rfl
  | ended result w =>
    cases result with
    | ok a =>
      obtain ⟨rfl, quiet⟩ := body
      exact ⟨rfl, quiet⟩
    | error x =>
      obtain ⟨x, path⟩ := x
      cases x with
      | unknown what => trivial
      | pgs x =>
        obtain ⟨quiet, rfl⟩ := body
        refine ⟨quiet, ?_⟩
        dsimp only [leave]
        by_cases jump : (Signal.pgs x).isJump = true
        · simp only [jump, if_true]
          exact (reportQuiet quiet).trans (by rw [if_pos jump])
        · simp only [jump]
          cases path with
          | nil =>
            -- the innermost element: it reports
            exact (reportQuiet quiet).trans (by simp only [jump]; rfl)
          | cons inner path => exact reportAgain rfl

theorem evalListFollows {setting : Setting σ} {followStmt : Stmt σ → World σ → Ran σ Failure Unit}
    {evalStmt : Stmt σ → World σ → Ran σ Signal Unit}
    (each : ∀ stmt w, Quiet w → Matches setting (followStmt stmt w) (evalStmt stmt w))
    (list : List (Stmt σ)) {w : World σ} (quiet : Quiet w) :
    Matches setting (followList setting followStmt list w) (evalList setting evalStmt list w) := by
  induction list generalizing w with
  | nil => exact ⟨rfl, quiet⟩
  | cons current rest ih =>
    have body : Matches setting
        ((followStmt current w).bind fun _ w => (testDestroy setting w).mapError raise)
        ((evalStmt current w).bind fun _ w => testDestroy setting w) :=
      matchesBind (each current w quiet) fun _ w quiet =>
        matchesRaise quiet (testDestroyUnreported setting w)
    exact matchesBind (matchesElement current.line body) fun _ w quiet => ih quiet

theorem evalFollows (setting : Setting σ) (fuel : ℕ) (stmt : Stmt σ) {w : World σ}
    (quiet : Quiet w) : Matches setting (follow setting fuel stmt w) (eval setting fuel stmt w) := by
  induction fuel generalizing stmt w with
  | zero => rfl
  | succ fuel ih =>
    have condition : ∀ cond : Expression σ Bool,
        Matches setting ((cond.run w).mapError raise) (cond.run w) := fun cond =>
      matchesRaise quiet (runUnreported cond w)
    cases stmt with
    | ifStmt line cond yes no => exact matchesBind (condition cond) fun holds w quiet => ih _ quiet
    | whileStmt line cond body =>
      refine matchesBind (condition cond) fun holds w quiet => ?_
      have again : ∀ w : World σ, Quiet w → Matches setting
          (((testDestroy setting w).mapError raise).bind fun _ w =>
            follow setting fuel (.whileStmt line cond body) w)
          ((testDestroy setting w).bind fun _ w =>
            eval setting fuel (.whileStmt line cond body) w) := fun w quiet =>
        matchesBind (matchesRaise quiet (testDestroyUnreported setting w)) fun _ w quiet => ih _ quiet
      cases holds with
      | false => exact ⟨rfl, quiet⟩
      | true =>
        have turn := ih body quiet
        simp only [if_true]
        cases spec : follow setting fuel body w with
        | running last =>
          rw [spec] at turn
          rw [show eval setting fuel body w = .running last from turn]
          rfl
        | ended result last =>
          rw [spec] at turn
          cases result with
          | ok a =>
            rw [turn.1]
            exact again last turn.2
          | error x =>
            obtain ⟨x, path⟩ := x
            cases x with
            | unknown what => trivial
            | pgs x =>
              obtain ⟨after, same⟩ := turn
              rw [same]
              cases x with
              | pgsBreakException => exact ⟨rfl, after⟩
              | pgsContinueException => exact again last after
              | pgsParameterException m => exact ⟨after, rfl⟩
              | pgsArithmeticException left right => exact ⟨after, rfl⟩
              | pgsCastException value type => exact ⟨after, rfl⟩
              | pgsAssertException m => exact ⟨after, rfl⟩
              | pgsInterruptException => exact ⟨after, rfl⟩
    | stmtList line list => exact evalListFollows (fun stmt w quiet => ih stmt quiet) list quiet
    | expressionStmt line var => exact matchesRaise quiet (runUnreported var w)
    | printStmt line var => exact matchesRaise quiet (printUnreported setting var w)
    | assertStmt line cond => exact matchesRaise quiet (assertUnreported cond w)
    | breakStmt line => exact ⟨quiet, rfl⟩
    | continueStmt line => exact ⟨quiet, rfl⟩
    | declareRecordStmt line record columns => exact ⟨rfl, quiet⟩

/-! `follow` itself writes no error, and an exception leaves a list with the line of an element. -/

theorem mapErrorWorld (f : ε → δ) (ran : Ran σ ε α) : (ran.mapError f).world = ran.world := by
  cases ran with
  | running w => rfl
  | ended result w => cases result <;> rfl

theorem bindErrors {first : Ran σ ε α} {next : α → World σ → Ran σ ε β}
    (rest : ∀ a w, errors (next a w).world.output = errors w.output) :
    errors (first.bind next).world.output = errors first.world.output := by
  cases first with
  | running w => rfl
  | ended result w =>
    cases result with
    | ok a => exact rest a w
    | error x => rfl

theorem raiseErrors {w : World σ} {ran : Ran σ Signal α} (unreported : Unreported w ran) :
    errors (ran.mapError raise).world.output = errors w.output := by
  rw [mapErrorWorld, unreported.errors]

theorem followListErrors {setting : Setting σ} {followStmt : Stmt σ → World σ → Ran σ Failure Unit}
    (each : ∀ stmt w, errors (followStmt stmt w).world.output = errors w.output)
    (list : List (Stmt σ)) (w : World σ) :
    errors (followList setting followStmt list w).world.output = errors w.output := by
  induction list generalizing w with
  | nil => rfl
  | cons current rest ih =>
    rw [followList, bindErrors fun _ w => ih w, mapErrorWorld, bindErrors, each]
    exact fun _ w => raiseErrors (testDestroyUnreported setting w)

theorem followErrors (setting : Setting σ) (fuel : ℕ) (stmt : Stmt σ) (w : World σ) :
    errors (follow setting fuel stmt w).world.output = errors w.output := by
  induction fuel generalizing stmt w with
  | zero => rfl
  | succ fuel ih =>
    have condition : ∀ cond : Expression σ Bool,
        errors ((cond.run w).mapError raise).world.output = errors w.output := fun cond =>
      raiseErrors (runUnreported cond w)
    cases stmt with
    | ifStmt line cond yes no => exact (bindErrors fun _ w => ih _ w).trans (condition cond)
    | whileStmt line cond body =>
      refine (bindErrors fun holds w => ?_).trans (condition cond)
      have again : ∀ w : World σ, errors (((testDestroy setting w).mapError raise).bind fun _ w =>
          follow setting fuel (.whileStmt line cond body) w).world.output = errors w.output :=
        fun w => (bindErrors fun _ w => ih _ w).trans (raiseErrors (testDestroyUnreported setting w))
      split
      · have turn := ih body w
        split <;> rename_i same <;> rw [same] at turn
        · exact turn
        · exact (again _).trans turn
        · exact turn
        · exact (again _).trans turn
        · exact turn
      · rfl
    | stmtList line list => exact followListErrors ih list w
    | expressionStmt line var => exact raiseErrors (runUnreported var w)
    | printStmt line var => exact raiseErrors (printUnreported setting var w)
    | assertStmt line cond => exact raiseErrors (assertUnreported cond w)
    | breakStmt line => rfl
    | continueStmt line => rfl
    | declareRecordStmt line record columns => rfl

theorem followListLeaves {setting : Setting σ} {followStmt : Stmt σ → World σ → Ran σ Failure Unit}
    {list : List (Stmt σ)} {w last : World σ} {x : Failure}
    (ended : followList setting followStmt list w = .ended (.error x) last) : x.2 ≠ [] := by
  induction list generalizing w with
  | nil => cases ended
  | cons current rest ih =>
    rw [followList] at ended
    generalize (followStmt current w).bind _ = body at ended
    cases body with
    | running w => cases ended
    | ended result w =>
      cases result with
      | ok a => exact ih ended
      | error y =>
        cases ended
        simp [leave]

/-! Runs of programs, one after another. -/

/- No expression the run evaluates raises a std::exception that is not a pgsException. -/
def Calm (setting : Setting σ) (fuel : ℕ) (program : List (Stmt σ)) (w : World σ) : Prop :=
  ∀ what path last, follow setting fuel (.stmtList 0 program) w ≠
    .ended (.error (.unknown what, path)) last

/- The worlds a program can start in: the flag is static and the output shared, everything else
may change between two runs. -/
inductive Session (setting : Setting σ) : World σ → Prop where
  | start (vars : PgsVarMap) (host : σ) (output : List Entry) :
    Session setting ⟨vars, host, output, false, false, -1⟩
  | run {w last : World σ} {fuel : ℕ} {program : List (Stmt σ)} {result : Except Signal Unit}
    (before : Session setting w) (calm : Calm setting fuel program w)
    (ended : evalProgram setting fuel program w = .ended result last)
    (vars : PgsVarMap) (host : σ) (output : List Entry) (line : ℤ) :
    Session setting ⟨vars, host, output, last.locked, last.exceptionThrown, line⟩

structure Reports (setting : Setting σ) (fuel : ℕ) (program : List (Stmt σ)) (w : World σ) :
    Prop where
  failed : ∀ x last, eval setting fuel (.stmtList 0 program) w = .ended (.error x) last →
    x.isJump = false → ∃ e line path before, x = .pgs e ∧
      follow setting fuel (.stmtList 0 program) w = .ended (.error (x, line :: path)) before ∧
      errors last.output = errors w.output ++ [.error (message e) (some line)]
  silent : ∀ result last, eval setting fuel (.stmtList 0 program) w = .ended result last →
    (∀ x, result = .error x → x.isJump = true) → errors last.output = errors w.output
  running : ∀ last, eval setting fuel (.stmtList 0 program) w = .running last →
    errors last.output = errors w.output
  reset : ∀ result last, evalProgram setting fuel program w = .ended result last →
    last.exceptionThrown = false

theorem programEnds {setting : Setting σ} {fuel : ℕ} {program : List (Stmt σ)} {w last : World σ}
    {result : Except Signal Unit} (ended : evalProgram setting fuel program w = .ended result last) :
    ∃ inner before, eval setting fuel (.stmtList 0 program) w = .ended inner before ∧
      last = {before with exceptionThrown := false} := by
  unfold evalProgram at ended
  split at ended
  · rename_i inner before ran
    cases ended
    exact ⟨inner, before, ran, rfl⟩
  · cases ended

theorem calmCases {setting : Setting σ} {fuel : ℕ} {program : List (Stmt σ)} {w : World σ}
    (quiet : Quiet w) (calm : Calm setting fuel program w) :
    (∃ last, follow setting fuel (.stmtList 0 program) w = .running last ∧
      eval setting fuel (.stmtList 0 program) w = .running last) ∨
    (∃ last, follow setting fuel (.stmtList 0 program) w = .ended (.ok ()) last ∧ Quiet last ∧
      eval setting fuel (.stmtList 0 program) w = .ended (.ok ()) last) ∨
    ∃ x line path last,
      follow setting fuel (.stmtList 0 program) w = .ended (.error (.pgs x, line :: path)) last ∧
      Quiet last ∧ eval setting fuel (.stmtList 0 program) w = .ended (.error (.pgs x))
        (if (Signal.pgs x).isJump then last else markReported setting line (.pgs x) last) := by
  have run := evalFollows setting fuel (.stmtList 0 program) quiet
  cases spec : follow setting fuel (.stmtList 0 program) w with
  | running last =>
    rw [spec] at run
    exact .inl ⟨last, rfl, run⟩
  | ended result last =>
    rw [spec] at run
    cases result with
    | ok a => exact .inr (.inl ⟨last, rfl, run.2, run.1⟩)
    | error x =>
      obtain ⟨x, path⟩ := x
      cases x with
      | unknown what => exact absurd spec (calm what path last)
      | pgs x =>
        obtain ⟨after, same⟩ := run
        cases fuel with
        | zero => cases spec
        | succ fuel =>
          obtain ⟨line, path, rfl⟩ := List.exists_cons_of_ne_nil (followListLeaves spec)
          exact .inr (.inr ⟨x, line, path, last, rfl, after, same⟩)

theorem sessionQuiet {setting : Setting σ} {w : World σ} (session : Session setting w) :
    Quiet w := by
  induction session with
  | start vars host output => exact ⟨rfl, rfl⟩
  | run before calm ended vars host output line ih =>
    obtain ⟨inner, middle, ran, rfl⟩ := programEnds ended
    refine ⟨rfl, ?_⟩
    rcases calmCases ih calm with ⟨_, _, same⟩ | ⟨_, _, quiet, same⟩ | ⟨x, line, path, last, _,
      quiet, same⟩
    · rw [ran] at same
      cases same
    · rw [ran] at same
      cases same
      exact quiet.2
    · rw [ran] at same
      cases same
      dsimp only
      split
      · exact quiet.2
      · exact quiet.2

theorem testDestroyError {setting : Setting σ} {w last : World σ} {x : Signal}
    (stopped : testDestroy setting w = .ended (.error x) last) : x = .pgs .pgsInterruptException := by
  unfold testDestroy at stopped
  split at stopped
  · cases stopped
  · injection stopped with result
    split at result <;> cases result
    rfl

theorem whileKeepsJumps (setting : Setting σ) (fuel : ℕ) (line : ℤ) (cond : Expression σ Bool)
    (body : Stmt σ) (w last : World σ) (x : Signal)
    (ended : eval setting fuel (.whileStmt line cond body) w = .ended (.error x) last) :
    x.isJump = false := by
  induction fuel generalizing w with
  | zero => cases ended
  | succ fuel ih =>
    have again : ∀ w : World σ, ((testDestroy setting w).bind fun _ w =>
        eval setting fuel (.whileStmt line cond body) w) = .ended (.error x) last →
        x.isJump = false := by
      intro w ended
      cases stop : testDestroy setting w with
      | running w =>
        rw [stop] at ended
        cases ended
      | ended result next =>
        rw [stop] at ended
        cases result with
        | ok a => exact ih next ended
        | error y =>
          cases ended
          rw [testDestroyError stop]
          rfl
    rw [eval] at ended
    cases condition : cond.run w with
    | running w =>
      rw [condition] at ended
      cases ended
    | ended result next =>
      rw [condition] at ended
      cases result with
      | error y =>
        cases ended
        unfold Expression.run at condition
        split at condition
        · cases condition
        · rename_i result vars host written same
          cases condition
          exact cond.raisesNoJump same
      | ok holds =>
        cases holds with
        | false => cases ended
        | true =>
          simp only [Ran.bind, if_true] at ended
          split at ended
          · cases ended
          · exact again _ ended
          · rename_i y next noBreak noContinue same
            cases ended
            cases x with
            | unknown what => rfl
            | pgs x =>
              cases x with
              | pgsBreakException => exact absurd rfl noBreak
              | pgsContinueException => exact absurd rfl noContinue
              | _ => rfl
          · exact again _ ended
          · cases ended

/-- In a session whose runs are calm, a run that ends in an exception other than break and
continue has written one error message, with the line of the innermost list element the exception
left; any other run has written none; no WHILE lets a break or continue out, and the flag is
false again. -/
theorem reportsOnce (setting : Setting σ) (fuel : ℕ) (program : List (Stmt σ)) (w : World σ)
    (session : Session setting w) (calm : Calm setting fuel program w) :
    Reports setting fuel program w ∧
      ∀ turns line (cond : Expression σ Bool) body (w last : World σ) x,
        eval setting turns (.whileStmt line cond body) w = .ended (.error x) last →
        x.isJump = false := by
  refine ⟨?_, fun turns line cond body w last x => whileKeepsJumps setting turns line cond body w last x⟩
  have written := followErrors setting fuel (.stmtList 0 program) w
  have reset : ∀ result last, evalProgram setting fuel program w = .ended result last →
      last.exceptionThrown = false := by
    intro result last ended
    obtain ⟨_, _, _, rfl⟩ := programEnds ended
    rfl
  rcases calmCases (sessionQuiet session) calm with ⟨last, spec, ran⟩ | ⟨last, spec, _, ran⟩ |
    ⟨e, line, path, last, spec, _, ran⟩
  all_goals rw [spec] at written
  · constructor
    · intro x other same
      rw [ran] at same
      cases same
    · intro result other same
      rw [ran] at same
      cases same
    · intro other same
      rw [ran] at same
      cases same
      exact written
    · exact reset
  · constructor
    · intro x other same
      rw [ran] at same
      cases same
    · intro result other same _
      rw [ran] at same
      cases same
      exact written
    · intro other same
      rw [ran] at same
      cases same
    · exact reset
  · constructor
    · intro x other same noJump
      rw [ran] at same
      cases same
      refine ⟨e, line, path, last, rfl, spec, ?_⟩
      rw [if_neg (by simp [noJump])]
      change errors (last.output ++ [.error (message e) (some line)]) = _
      rw [errorsAppend, errorsError]
      exact congrArg (· ++ _) written
    · intro result other same jumps
      rw [ran] at same
      cases same
      rw [if_pos (jumps _ rfl)]
      exact written
    · intro other same
      rw [ran] at same
      cases same
    · exact reset

theorem reportsOnceAssert :
    Reports (⟨.plain, some fun s => (false, s)⟩ : Setting Unit) 3
        [.assertStmt 3 (.constant ['0'] false)] ⟨fun _ => none, (), [], false, false, -1⟩ ∧
      ∀ turns line (cond : Expression Unit Bool) body (w last : World Unit) x,
        eval ⟨.plain, some fun s => (false, s)⟩ turns
          (.whileStmt line cond body) w = .ended (.error x) last → x.isJump = false :=
  reportsOnce _ 3 _ _ (.start _ _ _) fun _ _ _ same => nomatch same

/- An expression that runs out of memory on line 1: the message names no line. -/
theorem unknownWithoutLine :
    ¬ Reports (⟨.plain, some fun s => (false, s)⟩ : Setting Unit) 3
        [.expressionStmt 1 (.failing ['@', 'A'] (.unknown "std::bad_alloc".toList) rfl)]
        ⟨fun _ => none, (), [], false, false, -1⟩ := by
  intro reports
  obtain ⟨e, _, _, _, same, _⟩ := reports.failed _ _ rfl rfl
  cases same

end PgAdmin.PgsStatements
