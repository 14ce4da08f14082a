import PgAdmin.QueryThread

/-! libpq while a query is under way, as far as the query thread uses it. The library is a parameter, with what a
connection still has of the server's answer; what the thread relies on is the documented behaviour of each call. -/
namespace PgAdmin.libpq
open pgQueryThread (PGresult Status)

def isCopy : Status → Bool
  | .copyOut | .copyIn | .copyBoth => true
  | _ => false

/- Each call with its value and the connection behind it. The results are those still to be fetched; a connection waits
while not all of the answer has arrived, and what is left counts the portions to arrive and the messages to fetch. -/
structure Library where
  PGconn : Type
  PQconsumeInput : PGconn → ℤ × PGconn
  PQisBusy : PGconn → Bool
  PQgetResult : PGconn → Option PGresult × PGconn
  PQgetCopyData : PGconn → ℤ × PGconn
  PQputCopyEnd : PGconn → PGconn
  connectionBad : PGconn → Bool
  results : PGconn → List PGresult
  copying : PGconn → Bool
  failed : PGconn → Bool
  waits : PGconn → Bool
  left : PGconn → ℕ

namespace Library
variable (lib : Library)

structure Same (c c' : lib.PGconn) : Prop where
  results : lib.results c' = lib.results c
  failed : lib.failed c' = lib.failed c

structure Documented : Prop where
  consumed : ∀ c, (lib.PQconsumeInput c).1 = 1 → lib.failed c = false ∧ lib.Same c (lib.PQconsumeInput c).2 ∧
    lib.copying (lib.PQconsumeInput c).2 = lib.copying c ∧ lib.left (lib.PQconsumeInput c).2 ≤ lib.left c ∧
    (lib.waits (lib.PQconsumeInput c).2 = true → lib.waits c = true) ∧
    (lib.waits c = true → lib.left (lib.PQconsumeInput c).2 < lib.left c)
  trouble : ∀ c, (lib.PQconsumeInput c).1 ≠ 1 → (lib.PQconsumeInput c).1 = 0 ∧
    lib.failed (lib.PQconsumeInput c).2 = true
  busy : ∀ c, lib.PQisBusy c = true → lib.waits c = true
  done : ∀ c, lib.copying c = false → lib.failed c = false → (lib.PQgetResult c).1 = none → lib.results c = [] ∧
    lib.Same c (lib.PQgetResult c).2 ∧ lib.copying (lib.PQgetResult c).2 = false ∧ lib.left (lib.PQgetResult c).2 = 0
  /- else it is the next one, or PGRES_FATAL_ERROR for a connection that was lost in the meantime -/
  result : ∀ c res, lib.copying c = false → lib.failed c = false → (lib.PQgetResult c).1 = some res →
    lib.left (lib.PQgetResult c).2 < lib.left c ∧
    (lib.failed (lib.PQgetResult c).2 = false → lib.results c = res :: lib.results (lib.PQgetResult c).2 ∧
      lib.copying (lib.PQgetResult c).2 = isCopy res.status) ∧
    (lib.failed (lib.PQgetResult c).2 = true → res.status = .fatalError ∧ lib.results (lib.PQgetResult c).2 = [] ∧
      lib.copying (lib.PQgetResult c).2 = false)
  /- PQgetCopyData without waiting: -1 or -2 behind the data, 0 until PQconsumeInput has taken in more, else a row -/
  copyEnds : ∀ c, (lib.PQgetCopyData c).1 < 0 → lib.Same c (lib.PQgetCopyData c).2 ∧
    lib.copying (lib.PQgetCopyData c).2 = false ∧ lib.left (lib.PQgetCopyData c).2 ≤ lib.left c
  copyWaits : ∀ c, (lib.PQgetCopyData c).1 = 0 → (lib.PQgetCopyData c).2 = c ∧ lib.waits c = true
  copyRow : ∀ c, 0 < (lib.PQgetCopyData c).1 → lib.Same c (lib.PQgetCopyData c).2 ∧
    lib.left (lib.PQgetCopyData c).2 < lib.left c
  copyEnded : ∀ c, lib.Same c (lib.PQputCopyEnd c) ∧ lib.copying (lib.PQputCopyEnd c) = false ∧
    lib.left (lib.PQputCopyEnd c) ≤ lib.left c

end Library

/- A connection, and how often m_cancelled was looked at. -/
structure Session (lib : Library) where
  conn : lib.PGconn
  looks : ℕ

namespace Session
variable {lib : Library}

/- A cancellation is seen from a certain look at m_cancelled on. -/
def m_cancelled (moment : Option ℕ) (s : Session lib) : Bool := moment.any fun look => look ≤ s.looks
def looked (s : Session lib) : Session lib := { s with looks := s.looks + 1 }

def consumes (s : Session lib) : ℤ := (lib.PQconsumeInput s.conn).1
def consumed (s : Session lib) : Session lib := { s with conn := (lib.PQconsumeInput s.conn).2 }

def PQisBusy (s : Session lib) : Bool := lib.PQisBusy s.conn

def PQgetResult (s : Session lib) : Option PGresult × Session lib :=
  ((lib.PQgetResult s.conn).1, { s with conn := (lib.PQgetResult s.conn).2 })

def PQputCopyEnd (s : Session lib) : Session lib := { s with conn := lib.PQputCopyEnd s.conn }

def copyRc (s : Session lib) : ℤ := (lib.PQgetCopyData s.conn).1
def copyTaken (s : Session lib) : Session lib := { s with conn := (lib.PQgetCopyData s.conn).2 }

def bad (s : Session lib) : Bool := lib.connectionBad s.conn
def results (s : Session lib) : List PGresult := lib.results s.conn
def copying (s : Session lib) : Bool := lib.copying s.conn
def failed (s : Session lib) : Bool := lib.failed s.conn
def waits (s : Session lib) : Bool := lib.waits s.conn
def size (s : Session lib) : ℕ := lib.left s.conn

def Idle (s : Session lib) : Prop := s.results = [] ∧ s.copying = false ∧ s.size = 0

end Session

/- What the server keeps to: COPY in both directions is for replication only, an error ends the query, and COPY data is
followed by the command's own result. -/
def Served : List PGresult → Prop
  | [] => True
  | res :: rest =>
    res.status ≠ .copyBoth ∧ (res.status.isError = true → ∀ later ∈ rest, isCopy later.status = false) ∧
      (res.status = .copyOut → ∀ next ∈ rest.head?, isCopy next.status = false) ∧ Served rest

section Reading
variable {lib : Library} {s : Session lib}

/- What a result taken outside COPY leaves. -/
structure Taken (s s' : Session lib) (res : PGresult) : Prop where
  looks : s'.looks = s.looks
  broken : s'.failed = true → res.status = .fatalError ∧ s'.results = [] ∧ s'.copying = false
  fine : s'.failed = false → s.results = res :: s'.results ∧ s'.copying = isCopy res.status

variable (documented : lib.Documented)
include documented

theorem consumedOk (ok : s.consumes = 1) : s.failed = false ∧ s.consumed.failed = false ∧
    s.consumed.copying = s.copying ∧ s.consumed.looks = s.looks ∧ s.consumed.results = s.results ∧
    (s.consumed.waits = true → s.waits = true) ∧ s.consumed.size ≤ s.size ∧
      (s.waits = true → s.consumed.size < s.size) := by
  obtain ⟨calm, same, copying, size, waits, less⟩ := documented.consumed s.conn ok
  exact ⟨calm, same.failed.trans calm, copying, rfl, same.results, waits, size, less⟩

theorem consumedBad (bad : s.consumes ≠ 1) : s.consumes = 0 ∧ s.consumed.failed = true :=
  documented.trouble s.conn bad

theorem getResultNone (copying : s.copying = false) (calm : s.failed = false) (none_ : s.PQgetResult.1 = none) :
    s.PQgetResult.2.Idle ∧ s.PQgetResult.2.failed = s.failed ∧ s.results = [] := by
  obtain ⟨nothing, same, ended, size⟩ := documented.done s.conn copying calm none_
  exact ⟨⟨same.results.trans nothing, ended, size⟩, same.failed, nothing⟩

theorem getResultSome {res : PGresult} (copying : s.copying = false) (calm : s.failed = false)
    (here : s.PQgetResult.1 = some res) :
    Taken s s.PQgetResult.2 res ∧ s.PQgetResult.2.size < s.size := by
  obtain ⟨size, fine, broken⟩ := documented.result s.conn res copying calm here
  exact ⟨⟨rfl, broken, fine⟩, size⟩

theorem copyTakenEnd (ends : s.copyRc < 0) : s.copyTaken.copying = false ∧ s.copyTaken.failed = s.failed ∧
    s.copyTaken.looks = s.looks ∧ s.copyTaken.results = s.results ∧ s.copyTaken.size ≤ s.size := by
  obtain ⟨same, copying, size⟩ := documented.copyEnds s.conn ends
  exact ⟨copying, same.failed, rfl, same.results, size⟩

theorem copyTakenMore (more : 0 ≤ s.copyRc) : s.copyTaken.failed = s.failed ∧
    s.copyTaken.looks = s.looks ∧ s.copyTaken.results = s.results ∧
    (s.copyRc = 0 ∧ s.copyTaken = s ∧ s.waits = true ∨ 0 < s.copyRc ∧ s.copyTaken.size < s.size) := by
  rcases (Int.lt_or_eq_of_le more).symm with none_ | row
  · obtain ⟨same, waits⟩ := documented.copyWaits s.conn none_.symm
    have stays : s.copyTaken = s := by rw [Session.copyTaken, same]
    exact ⟨by rw [stays], rfl, by rw [stays], .inl ⟨none_.symm, stays, waits⟩⟩
  · obtain ⟨same, less⟩ := documented.copyRow s.conn row
    exact ⟨same.failed, rfl, same.results, .inr ⟨row, less⟩⟩

end Reading

/- A server whose results arrive portion by portion, with COPY data without rows. -/
structure Wire where
  arrived : List PGresult
  coming : List (List PGresult)
  copying : Bool

namespace Wire

def consumed (c : Wire) : Wire :=
  match c.coming with
  | [] => c
  | portion :: coming => { c with arrived := c.arrived ++ portion, coming := coming }

def fetched (c : Wire) : Option PGresult × Wire :=
  match c.arrived with
  | res :: rest => (some res, ⟨rest, c.coming, isCopy res.status⟩)
  | [] => match c.coming.flatten with
    | res :: rest => (some res, ⟨rest, [], isCopy res.status⟩)
    | [] => (none, ⟨[], [], c.copying⟩)

def copied (c : Wire) : ℤ × Wire :=
  if c.arrived.isEmpty ∧ c.coming ≠ [] then (0, c) else (-1, { c with copying := false })

def library : Library where
  PGconn := Wire
  PQconsumeInput c := (1, c.consumed)
  PQisBusy c := !c.copying && c.arrived.isEmpty && !c.coming.isEmpty
  PQgetResult := fetched
  PQgetCopyData := copied
  PQputCopyEnd c := { c with copying := false }
  connectionBad _ := false
  results c := c.arrived ++ c.coming.flatten
  copying c := c.copying
  failed _ := false
  waits c := !c.coming.isEmpty
  left c := c.arrived.length + c.coming.flatten.length + c.coming.length

theorem documented : library.Documented where
  consumed c _ := by
    rcases c with ⟨arrived, _ | ⟨portion, coming⟩, copying⟩
    · exact ⟨rfl, ⟨rfl, rfl⟩, rfl, Nat.le_refl _, id, nofun⟩
    · have less : (arrived ++ portion).length + coming.flatten.length + coming.length <
          arrived.length + (portion :: coming).flatten.length + (portion :: coming).length := by
        simp only [List.length_append, List.flatten_cons, List.length_cons]
        omega
      exact ⟨rfl, ⟨List.append_assoc .., rfl⟩, rfl, Nat.le_of_lt less, fun _ => rfl, fun _ => less⟩
  trouble _ bad := (bad rfl).elim
  busy c busy := by
    simp only [library, Bool.and_eq_true] at busy
    exact busy.2
  done c copying _ none_ := by
    rcases c with ⟨_ | ⟨res, arrived⟩, coming, held⟩
    · rcases rest : coming.flatten with _ | ⟨res, more⟩
      · simp only [library, fetched, rest]
        exact ⟨rfl, ⟨rest.symm, rfl⟩, copying, rfl⟩
      · simp [library, fetched, rest] at none_
    · simp [library, fetched] at none_
  result c res copying _ here := by
    rcases c with ⟨_ | ⟨first, arrived⟩, coming, held⟩
    · rcases rest : coming.flatten with _ | ⟨first, more⟩
      · simp [library, fetched, rest] at here
      · simp only [library, fetched, rest, Option.some.injEq] at here ⊢
        subst here
        exact ⟨by simp; omega, fun _ => ⟨by simp, rfl⟩, nofun⟩
    · simp only [library, fetched, Option.some.injEq] at here ⊢
      subst here
      exact ⟨by simp, fun _ => ⟨rfl, rfl⟩, nofun⟩
  copyEnds c ends := by
    simp only [library, copied] at ends ⊢
    split_ifs at ends ⊢
    · exact absurd ends (Int.lt_irrefl 0)
    · exact ⟨⟨rfl, rfl⟩, rfl, Nat.le_refl _⟩
  copyWaits c none_ := by
    simp only [library, copied] at none_ ⊢
    split_ifs at none_ ⊢ with empty
    · exact ⟨rfl, by simpa using empty.2⟩
    · cases none_
  copyRow c row := by
    simp only [library, copied] at row
    split_ifs at row
    · exact absurd row (Int.lt_irrefl 0)
    · cases row
  copyEnded c := ⟨⟨rfl, rfl⟩, rfl, Nat.le_refl _⟩

end Wire

end PgAdmin.libpq
