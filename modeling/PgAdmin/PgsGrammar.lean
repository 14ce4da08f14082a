import Mathlib

/-! The pgScript grammar with what each reduction does to the context's two stacks. A row is a
production: its right side, and in terms of $1, $2, .. the nodes its action embeds in $$, the
defaults it makes, and how often it pops. -/
namespace PgAdmin.PgsParser

inductive SqlKeyword where
  | pgsAbort | pgsAlter | pgsAnalyze | pgsBegin | pgsCheckpoint | pgsCloseSt | pgsCluster
  | pgsComment | pgsCommit | pgsCopy | pgsCreate | pgsDeallocate | pgsDeclare | pgsDelete
  | pgsDiscard | pgsDrop | pgsEndSt | pgsExecute | pgsExplain | pgsFetch | pgsGrant | pgsInsert
  | pgsListen | pgsLoad | pgsLock | pgsMove | pgsNotify | pgsPrepare | pgsReassign | pgsReindex
  | pgsRelease | pgsReset | pgsRevoke | pgsRollback | pgsSavepoint | pgsSelect | pgsSet | pgsShow
  | pgsStart | pgsTruncate | pgsUnlisten | pgsUpdate | pgsVacuum | pgsValues
  deriving DecidableEq, Repr

inductive Token where
  | pgsIdentifier | pgsCntLines | pgsCntColumns | pgsTrim | pgsValInt | pgsValReal | pgsValStr
  | pgsNotOp | pgsCast | pgsAs | pgsInteger | pgsReal | pgsString | pgsRecord | pgsLeOp | pgsGeOp
  | pgsEqOp | pgsAeOp | pgsNeOp | pgsAndOp | pgsOrOp | pgsRegex | pgsFile | pgsDate | pgsTime
  | pgsDateTime | pgsReference | pgsOpen | pgsClose | pgsDeclareAssgn | pgsSetAssign | pgsIf
  | pgsElse | pgsWhile | pgsBreak | pgsReturn | pgsContinue | pgsPrint | pgsAssert | pgsRmLine
  | pgsEnd
  | sql (keyword : SqlKeyword)
  deriving DecidableEq, Repr

inductive Nonterminal where
  | postfixExpression | unaryExpression | castExpression | typeName | multiplicativeExpression
  | additiveExpression | relationalExpression | equalityExpression | logicalAndExpression
  | logicalOrExpression | expression | randomGenerator | statement | statementList
  | compoundStatement | sqlStatement | sqlExpression | sqlQuery | declarationStatement
  | declarationList | declarationElement | assignStatement | assignList | assignElement
  | selectionStatement | iterationStatement | jumpStatement | procedureStatement
  | recordDeclarationList | translationUnit
  deriving DecidableEq, Repr

inductive Symbol where
  | t (token : Token)
  | c (char : Char)
  | n (name : Nonterminal)
  deriving DecidableEq, Repr

/- The %type of a symbol: does its semantic value own a node, and of which stack. -/
inductive Kind where
  | plain
  | expr
  | stmt
  deriving DecidableEq, Repr

def Nonterminal.kind : Nonterminal → Kind
  | .postfixExpression | .unaryExpression | .castExpression | .multiplicativeExpression
  | .additiveExpression | .relationalExpression | .equalityExpression | .logicalAndExpression
  | .logicalOrExpression | .expression | .randomGenerator | .sqlExpression => .expr
  | .statement | .statementList | .compoundStatement | .sqlStatement | .declarationStatement
  | .declarationList | .declarationElement | .assignStatement | .assignList | .assignElement
  | .selectionStatement | .iterationStatement | .jumpStatement | .procedureStatement => .stmt
  | .typeName | .sqlQuery | .recordDeclarationList | .translationUnit => .plain

def Symbol.kind : Symbol → Kind
  | n name => name.kind
  | _ => .plain

inductive Default where
  | zero | one | seed | encoding
  deriving DecidableEq, Repr

inductive Action where
  | plain
  | passOn (i : ℕ)
  /- $$ = pnew ..($kids, defaults); pop_var() as often as said; push_var($$) -/
  | embedVar (kids : List ℕ) (defaults : List Default) (popVars : ℕ)
  /- $$ = pnew ..($vars, $stmts, stmt_list() if there is one); pops; push_stmt($$) -/
  | embedStmt (vars stmts : List ℕ) (emptyList : Bool) (popVars popStmts : ℕ)
  /- $$ = stmt_list() -/
  | emptyList
  /- pop_stmt(); $$ = stmt_list(); $$->insert_back($i) -/
  | openList (i : ℕ)
  /- pop_stmt(); $$ = $list; $$->insert_back($i) -/
  | appendList (list i : ℕ)
  /- program.eval($i); pop_stmt(); pdelete($i) -/
  | runProgram (i : ℕ)
  deriving DecidableEq, Repr

structure Production where
  lhs : Nonterminal
  rhs : List Symbol
  action : Action
  deriving DecidableEq, Repr

/- `'(' expression ',' .. ',' expression ')'` -/
def arguments (count : ℕ) : List Symbol :=
  .c '(' :: .n .expression ::
    (List.replicate (count - 1) [.c ',', .n .expression]).flatten ++ [.c ')']

def expressions : List Production := [
  ⟨.postfixExpression, [.t .pgsIdentifier, .c '[', .n .expression, .c ']', .c '[',
    .n .expression, .c ']'],
    .embedVar [3, 6] [] 2⟩,
  ⟨.postfixExpression, [.t .pgsIdentifier, .c '[', .n .expression, .c ']'], .embedVar [3] [] 1⟩,
  ⟨.postfixExpression, [.t .pgsCntLines, .c '(', .t .pgsIdentifier, .c ')'], .embedVar [] [] 0⟩,
  ⟨.postfixExpression, [.t .pgsCntColumns, .c '(', .t .pgsIdentifier, .c ')'],
    .embedVar [] [] 0⟩,
  ⟨.postfixExpression, [.t .pgsTrim, .c '(', .n .expression, .c ')'], .embedVar [3] [] 1⟩,
  ⟨.postfixExpression, [.t .pgsIdentifier], .embedVar [] [] 0⟩,
  ⟨.postfixExpression, [.t .pgsValInt], .embedVar [] [] 0⟩,
  ⟨.postfixExpression, [.t .pgsValReal], .embedVar [] [] 0⟩,
  ⟨.postfixExpression, [.t .pgsValStr], .embedVar [] [] 0⟩,
  ⟨.postfixExpression, [.c '(', .t (.sql .pgsSelect), .c ')'], .embedVar [] [] 0⟩,
  ⟨.postfixExpression, [.n .randomGenerator], .passOn 1⟩,
  ⟨.postfixExpression, [.c '(', .n .expression, .c ')'], .embedVar [2] [] 1⟩,
  ⟨.unaryExpression, [.n .postfixExpression], .passOn 1⟩,
  ⟨.unaryExpression, [.c '+', .n .castExpression], .passOn 2⟩,
  ⟨.unaryExpression, [.c '-', .n .castExpression], .embedVar [2] [] 1⟩,
  ⟨.unaryExpression, [.t .pgsNotOp, .n .castExpression], .embedVar [2] [] 1⟩,
  ⟨.castExpression, [.n .unaryExpression], .passOn 1⟩,
  ⟨.castExpression, [.t .pgsCast, .c '(', .n .castExpression, .t .pgsAs, .n .typeName, .c ')'],
    .embedVar [3] [] 1⟩,
  ⟨.typeName, [.t .pgsInteger], .plain⟩,
  ⟨.typeName, [.t .pgsReal], .plain⟩,
  ⟨.typeName, [.t .pgsString], .plain⟩,
  ⟨.typeName, [.t .pgsRecord], .plain⟩,
  ⟨.multiplicativeExpression, [.n .castExpression], .passOn 1⟩,
  ⟨.multiplicativeExpression, [.n .multiplicativeExpression, .c '*', .n .castExpression],
    .embedVar [1, 3] [] 2⟩,
  ⟨.multiplicativeExpression, [.n .multiplicativeExpression, .c '/', .n .castExpression],
    .embedVar [1, 3] [] 2⟩,
  ⟨.multiplicativeExpression, [.n .multiplicativeExpression, .c '%', .n .castExpression],
    .embedVar [1, 3] [] 2⟩,
  ⟨.additiveExpression, [.n .multiplicativeExpression], .passOn 1⟩,
  ⟨.additiveExpression, [.n .additiveExpression, .c '+', .n .multiplicativeExpression],
    .embedVar [1, 3] [] 2⟩,
  ⟨.additiveExpression, [.n .additiveExpression, .c '-', .n .multiplicativeExpression],
    .embedVar [1, 3] [] 2⟩,
  ⟨.relationalExpression, [.n .additiveExpression], .passOn 1⟩,
  ⟨.relationalExpression, [.n .relationalExpression, .c '<', .n .additiveExpression],
    .embedVar [1, 3] [] 2⟩,
  ⟨.relationalExpression, [.n .relationalExpression, .c '>', .n .additiveExpression],
    .embedVar [1, 3] [] 2⟩,
  ⟨.relationalExpression, [.n .relationalExpression, .t .pgsLeOp, .n .additiveExpression],
    .embedVar [1, 3] [] 2⟩,
  ⟨.relationalExpression, [.n .relationalExpression, .t .pgsGeOp, .n .additiveExpression],
    .embedVar [1, 3] [] 2⟩,
  ⟨.equalityExpression, [.n .relationalExpression], .passOn 1⟩,
  ⟨.equalityExpression, [.n .equalityExpression, .t .pgsEqOp, .n .relationalExpression],
    .embedVar [1, 3] [] 2⟩,
  ⟨.equalityExpression, [.n .equalityExpression, .t .pgsAeOp, .n .relationalExpression],
    .embedVar [1, 3] [] 2⟩,
  ⟨.equalityExpression, [.n .equalityExpression, .t .pgsNeOp, .n .relationalExpression],
    .embedVar [1, 3] [] 2⟩,
  ⟨.logicalAndExpression, [.n .equalityExpression], .passOn 1⟩,
  ⟨.logicalAndExpression, [.n .logicalAndExpression, .t .pgsAndOp, .n .equalityExpression],
    .embedVar [1, 3] [] 2⟩,
  ⟨.logicalOrExpression, [.n .logicalAndExpression], .passOn 1⟩,
  ⟨.logicalOrExpression, [.n .logicalOrExpression, .t .pgsOrOp, .n .logicalAndExpression],
    .embedVar [1, 3] [] 2⟩,
  ⟨.expression, [.n .logicalOrExpression], .passOn 1⟩]

def randomGenerators : List Production := [
  ⟨.randomGenerator, .t .pgsInteger :: arguments 2, .embedVar [3, 5] [.zero, .seed] 4⟩,
  ⟨.randomGenerator, .t .pgsInteger :: arguments 3, .embedVar [3, 5, 7] [.seed] 4⟩,
  ⟨.randomGenerator, .t .pgsInteger :: arguments 4, .embedVar [3, 5, 7, 9] [] 4⟩,
  ⟨.randomGenerator, .t .pgsReal :: arguments 3, .embedVar [3, 5, 7] [.zero, .seed] 5⟩,
  ⟨.randomGenerator, .t .pgsReal :: arguments 4, .embedVar [3, 5, 7, 9] [.seed] 5⟩,
  ⟨.randomGenerator, .t .pgsReal :: arguments 5, .embedVar [3, 5, 7, 9, 11] [] 5⟩,
  ⟨.randomGenerator, .t .pgsString :: arguments 2, .embedVar [3, 5] [.one, .seed] 4⟩,
  ⟨.randomGenerator, .t .pgsString :: arguments 3, .embedVar [3, 5, 7] [.seed] 4⟩,
  ⟨.randomGenerator, .t .pgsString :: arguments 4, .embedVar [3, 5, 7, 9] [] 4⟩,
  ⟨.randomGenerator, .t .pgsRegex :: arguments 1, .embedVar [3] [.seed] 2⟩,
  ⟨.randomGenerator, .t .pgsRegex :: arguments 2, .embedVar [3, 5] [] 2⟩,
  ⟨.randomGenerator, .t .pgsFile :: arguments 1, .embedVar [3] [.zero, .seed, .encoding] 4⟩,
  ⟨.randomGenerator, .t .pgsFile :: arguments 2, .embedVar [3, 5] [.seed, .encoding] 4⟩,
  ⟨.randomGenerator, .t .pgsFile :: arguments 3, .embedVar [3, 5, 7] [.encoding] 4⟩,
  ⟨.randomGenerator, .t .pgsFile :: arguments 4, .embedVar [3, 5, 7, 9] [] 4⟩,
  ⟨.randomGenerator, .t .pgsDate :: arguments 2, .embedVar [3, 5] [.zero, .seed] 4⟩,
  ⟨.randomGenerator, .t .pgsDate :: arguments 3, .embedVar [3, 5, 7] [.seed] 4⟩,
  ⟨.randomGenerator, .t .pgsDate :: arguments 4, .embedVar [3, 5, 7, 9] [] 4⟩,
  ⟨.randomGenerator, .t .pgsTime :: arguments 2, .embedVar [3, 5] [.zero, .seed] 4⟩,
  ⟨.randomGenerator, .t .pgsTime :: arguments 3, .embedVar [3, 5, 7] [.seed] 4⟩,
  ⟨.randomGenerator, .t .pgsTime :: arguments 4, .embedVar [3, 5, 7, 9] [] 4⟩,
  ⟨.randomGenerator, .t .pgsDateTime :: arguments 2, .embedVar [3, 5] [.zero, .seed] 4⟩,
  ⟨.randomGenerator, .t .pgsDateTime :: arguments 3, .embedVar [3, 5, 7] [.seed] 4⟩,
  ⟨.randomGenerator, .t .pgsDateTime :: arguments 4, .embedVar [3, 5, 7, 9] [] 4⟩,
  ⟨.randomGenerator, .t .pgsReference :: arguments 2, .embedVar [3, 5] [.zero, .seed] 4⟩,
  ⟨.randomGenerator, .t .pgsReference :: arguments 3, .embedVar [3, 5, 7] [.seed] 4⟩,
  ⟨.randomGenerator, .t .pgsReference :: arguments 4, .embedVar [3, 5, 7, 9] [] 4⟩]

def statements : List Production := [
  ⟨.statement, [.n .compoundStatement], .passOn 1⟩,
  ⟨.statement, [.n .selectionStatement], .passOn 1⟩,
  ⟨.statement, [.n .iterationStatement], .passOn 1⟩,
  ⟨.statement, [.n .sqlStatement, .c ';'], .passOn 1⟩,
  ⟨.statement, [.n .procedureStatement, .c ';'], .passOn 1⟩,
  ⟨.statement, [.n .jumpStatement, .c ';'], .passOn 1⟩,
  ⟨.statement, [.n .declarationStatement, .c ';'], .passOn 1⟩,
  ⟨.statement, [.n .assignStatement, .c ';'], .passOn 1⟩,
  ⟨.statementList, [.n .statement], .openList 1⟩,
  ⟨.statementList, [.n .statementList, .n .statement], .appendList 1 2⟩,
  ⟨.compoundStatement, [.t .pgsOpen, .t .pgsClose], .emptyList⟩,
  ⟨.compoundStatement, [.t .pgsOpen, .n .statementList, .t .pgsClose], .passOn 2⟩,
  ⟨.sqlStatement, [.n .sqlExpression], .embedStmt [1] [] false 1 0⟩,
  ⟨.sqlExpression, [.n .sqlQuery], .embedVar [] [] 0⟩,
  ⟨.declarationStatement, [.t .pgsDeclareAssgn, .n .declarationList], .passOn 2⟩,
  ⟨.declarationList, [.n .declarationElement], .openList 1⟩,
  ⟨.declarationList, [.n .declarationList, .c ',', .n .declarationElement], .appendList 1 3⟩,
  ⟨.declarationElement, [.t .pgsIdentifier], .embedStmt [] [] false 0 0⟩,
  ⟨.declarationElement, [.t .pgsIdentifier, .c '{', .n .recordDeclarationList, .c '}'],
    .embedStmt [] [] false 0 0⟩,
  ⟨.assignStatement, [.t .pgsSetAssign, .n .assignList], .passOn 2⟩,
  ⟨.assignList, [.n .assignElement], .openList 1⟩,
  ⟨.assignList, [.n .assignList, .c ',', .n .assignElement], .appendList 1 3⟩,
  ⟨.assignElement, [.t .pgsIdentifier, .t .pgsEqOp, .n .expression],
    .embedStmt [3] [] false 1 0⟩,
  ⟨.assignElement, [.t .pgsIdentifier, .c '[', .n .expression, .c ']', .c '[',
    .n .expression, .c ']', .t .pgsEqOp, .n .expression],
    .embedStmt [3, 6, 9] [] false 3 0⟩,
  ⟨.assignElement, [.t .pgsIdentifier, .t .pgsEqOp, .n .sqlExpression],
    .embedStmt [3] [] false 1 0⟩,
  ⟨.selectionStatement, [.t .pgsIf, .n .expression, .n .statement], .embedStmt [2] [3] true 1 2⟩,
  ⟨.selectionStatement, [.t .pgsIf, .n .expression, .n .statement, .t .pgsElse, .n .statement],
    .embedStmt [2] [3, 5] false 1 2⟩,
  ⟨.iterationStatement, [.t .pgsWhile, .n .expression, .n .statement],
    .embedStmt [2] [3] false 1 1⟩,
  ⟨.jumpStatement, [.t .pgsBreak], .embedStmt [] [] false 0 0⟩,
  ⟨.jumpStatement, [.t .pgsReturn], .embedStmt [] [] false 0 0⟩,
  ⟨.jumpStatement, [.t .pgsContinue], .embedStmt [] [] false 0 0⟩,
  ⟨.procedureStatement, [.t .pgsPrint, .n .expression], .embedStmt [2] [] false 1 0⟩,
  ⟨.procedureStatement, [.t .pgsAssert, .n .expression], .embedStmt [2] [] false 1 0⟩,
  ⟨.procedureStatement, [.t .pgsRmLine, .c '(', .t .pgsIdentifier, .c '[', .n .expression,
    .c ']', .c ')'],
    .embedStmt [5] [] false 1 0⟩,
  ⟨.recordDeclarationList, [.t .pgsIdentifier], .plain⟩,
  ⟨.recordDeclarationList, [.n .recordDeclarationList, .c ',', .t .pgsIdentifier], .plain⟩,
  ⟨.translationUnit, [.t .pgsEnd], .plain⟩,
  ⟨.translationUnit, [.n .statementList, .t .pgsEnd], .runProgram 1⟩]

/- sql_query: one production for each keyword, `{ $$ = $1; }`. -/
def sqlKeywords : List SqlKeyword := [
  .pgsAbort, .pgsAlter, .pgsAnalyze, .pgsBegin, .pgsCheckpoint, .pgsCloseSt, .pgsCluster,
  .pgsComment, .pgsCommit, .pgsCopy, .pgsCreate, .pgsDeallocate, .pgsDeclare, .pgsDelete,
  .pgsDiscard, .pgsDrop, .pgsEndSt, .pgsExecute, .pgsExplain, .pgsFetch, .pgsGrant, .pgsInsert,
  .pgsListen, .pgsLoad, .pgsLock, .pgsMove, .pgsNotify, .pgsPrepare, .pgsReassign, .pgsReindex,
  .pgsRelease, .pgsReset, .pgsRevoke, .pgsRollback, .pgsSavepoint, .pgsSelect, .pgsSet, .pgsShow,
  .pgsStart, .pgsTruncate, .pgsUnlisten, .pgsUpdate, .pgsVacuum, .pgsValues]

def sqlQueries : List Production :=
  sqlKeywords.map fun keyword => ⟨.sqlQuery, [.t (.sql keyword)], .passOn 1⟩

def grammar : List Production := expressions ++ randomGenerators ++ statements ++ sqlQueries

end PgAdmin.PgsParser
