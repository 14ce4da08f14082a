import PgAdmin.PgsGrammar

/-! The parser as a shift-reduce machine over the grammar, next to the context's stacks of
expressions and statements. Any production may be reduced whose right side is on top, so the
runs include those of the generated automaton. Nodes are numbers in order of their making; the
context records who owns whom and which nodes were deleted as roots. Stacks are top first. -/
namespace PgAdmin.PgsParser

/- A semantic value: of an expression or a statement its node. -/
inductive Value where
  | plain
  | expr (node : ℕ)
  | stmt (node : ℕ)
  deriving DecidableEq, Repr

namespace Value

def kind : Value → Kind
  | plain => .plain
  | expr _ => .expr
  | stmt _ => .stmt

def node : Value → Option ℕ
  | plain => none
  | expr id => some id
  | stmt id => some id

end Value

def live (kind : Kind) (values : List Value) : List ℕ :=
  values.filterMap fun v => if v.kind = kind then v.node else none

structure PgsContext where
  vars : List ℕ
  stmts : List ℕ
  next : ℕ
  owns : List (ℕ × ℕ)
  deleted : List ℕ
  deriving DecidableEq, Repr

namespace PgsContext

def pushVar (c : PgsContext) (node : ℕ) : PgsContext := {c with vars := node :: c.vars}
def pushStmt (c : PgsContext) (node : ℕ) : PgsContext := {c with stmts := node :: c.stmts}

/- pop_back() of an empty vector is undefined: none. -/
def popVars (c : PgsContext) (count : ℕ) : Option PgsContext :=
  if count ≤ c.vars.length then some {c with vars := c.vars.drop count} else none

def popStmts (c : PgsContext) (count : ℕ) : Option PgsContext :=
  if count ≤ c.stmts.length then some {c with stmts := c.stmts.drop count} else none

def make (c : PgsContext) (kids : List ℕ) : PgsContext :=
  {c with next := c.next + 1, owns := c.owns ++ kids.map fun kid => (c.next, kid)}

/- zero(), one(), seed(), encoding(): all make a value and push it. -/
def makeDefault (c : PgsContext) (_ : Default) : PgsContext := (c.make []).pushVar c.next

/- stmt_list() -/
def stmtList (c : PgsContext) : PgsContext := (c.make []).pushStmt c.next

def insertBack (c : PgsContext) (list node : ℕ) : PgsContext :=
  {c with owns := c.owns ++ [(list, node)]}

def pdelete (c : PgsContext) (node : ℕ) : PgsContext := {c with deleted := c.deleted ++ [node]}

def clearStacks (c : PgsContext) : PgsContext :=
  {c with vars := [], stmts := [], deleted := c.deleted ++ c.vars ++ c.stmts}

end PgsContext

def valueOf (values : List Value) (i : ℕ) : Value := (values[i - 1]?).getD .plain

def nodesOf (values : List Value) (positions : List ℕ) : List ℕ :=
  positions.filterMap fun i => (valueOf values i).node

def perform (action : Action) (values : List Value) (c : PgsContext) :
    Option (Value × PgsContext) :=
  match action with
  | .plain => some (.plain, c)
  | .passOn i => some (valueOf values i, c)
  | .embedVar kids defaults pops => do
    let made := defaults.foldl PgsContext.makeDefault c
    let defaultNodes := (List.range defaults.length).map (c.next + ·)
    let popped ← (made.make (nodesOf values kids ++ defaultNodes)).popVars pops
    some (.expr made.next, popped.pushVar made.next)
  | .embedStmt vars stmts emptyList popVars popStmts => do
    let made := if emptyList then c.stmtList else c
    let lists := if emptyList then [c.next] else []
    let whole := made.make (nodesOf values vars ++ nodesOf values stmts ++ lists)
    let popped ← whole.popVars popVars
    let popped ← popped.popStmts popStmts
    some (.stmt made.next, popped.pushStmt made.next)
  | .emptyList => some (.stmt c.next, c.stmtList)
  | .openList i => do
    let popped ← c.popStmts 1
    let node ← (valueOf values i).node
    some (.stmt c.next, popped.stmtList.insertBack c.next node)
  | .appendList list i => do
    let popped ← c.popStmts 1
    let owner ← (valueOf values list).node
    let node ← (valueOf values i).node
    some (.stmt owner, popped.insertBack owner node)
  | .runProgram i => do
    let popped ← c.popStmts 1
    let node ← (valueOf values i).node
    some (.plain, popped.pdelete node)

structure Parser where
  stack : List (Symbol × Value)
  context : PgsContext
  deriving DecidableEq, Repr

namespace Parser

def start : Parser := ⟨[], ⟨[], [], 0, [], []⟩⟩

def handle (s : Parser) (rhs : List Symbol) : Option (List Value) :=
  let top := (s.stack.take rhs.length).reverse
  if top.map Prod.fst = rhs then some (top.map Prod.snd) else none

def reduce (p : Production) (s : Parser) : Option Parser := do
  let values ← s.handle p.rhs
  let out ← perform p.action values s.context
  some ⟨(.n p.lhs, out.1) :: s.stack.drop p.rhs.length, out.2⟩

def shift (symbol : Symbol) (s : Parser) : Parser := ⟨(symbol, .plain) :: s.stack, s.context⟩

end Parser

inductive Move where
  | shiftToken (token : Token)
  | shiftChar (char : Char)
  | reduce (index : ℕ)
  deriving DecidableEq, Repr

def step (s : Parser) : Move → Option Parser
  | .shiftToken token => some (s.shift (.t token))
  | .shiftChar char => some (s.shift (.c char))
  | .reduce index => (grammar[index]?).bind fun p => s.reduce p

def run : List Move → Parser → Option Parser
  | [], s => some s
  | move :: moves, s => (step s move).bind (run moves)

end PgAdmin.PgsParser
