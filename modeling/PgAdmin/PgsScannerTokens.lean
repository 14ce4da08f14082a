import PgAdmin.Flex
import PgAdmin.PgsGrammar
import PgAdmin.PgsStringRecord

/-! The start condition INITIAL of the pgScript scanner, and the texts of the tokens for numbers. Letters
stand for the bytes that the scanner reads. -/
namespace PgAdmin.PgsScanner
open Regular PgsParser

/- `%option case-insensitive` -/
def word (text : String) : Regular Char :=
  text.toList.foldr (fun c rest => cat (test fun d => d.toLower = c.toLower) rest) empty

def D : Regular Char := test Char.isDigit

def L : Regular Char := test fun c => c.isAlpha || (c = '_' || (c = '@' || c = '#'))

/- `[e-eE-E][+-]?{D}+` -/
def E : Regular Char :=
  cat (test fun c => c = 'E' || c = 'e') (cat (opt (test fun c => c = '+' || c = '-')) (plus D))

def blanks : Regular Char := plus (test fun c => c = ' ' || c = '\t')

/- `.` -/
def anyLetter : Regular Char := test (· ≠ '\n')

inductive InitialAction where
  | ignore
  | comment
  | string
  | token (symbol : Symbol)
  | tokenBefore (token : Token)
  | query (keyword : SqlKeyword)
  /- PGS_WAITFOR and PGS_UNKNOWN, which no production has. -/
  | waitFor
  | unknown
  deriving DecidableEq

abbrev InitialRule := Regular Char × InitialAction

def keywordRules : List InitialRule := [
  -- the end of the line is trailing context
  (cat (word "--") (cat (star anyLetter) (letter '\n')), .ignore),
  (word "/*", .comment),
  (word "WHILE", .token (.t .pgsWhile)),
  (word "BREAK", .token (.t .pgsBreak)),
  (word "RETURN", .token (.t .pgsReturn)),
  (word "CONTINUE", .token (.t .pgsContinue)),
  (word "IF", .token (.t .pgsIf)),
  (word "ELSE", .token (.t .pgsElse)),
  (word "WAITFOR", .waitFor),
  (word "AS", .token (.t .pgsAs)),
  (word "ASSERT", .token (.t .pgsAssert)),
  (word "GO", .ignore),
  (word "PRINT", .token (.t .pgsPrint)),
  (word "COLUMNS", .token (.t .pgsCntColumns)),
  (word "LINES", .token (.t .pgsCntLines)),
  (word "TRIM", .token (.t .pgsTrim)),
  (word "RMLINE", .token (.t .pgsRmLine)),
  (word "CAST", .token (.t .pgsCast)),
  (word "RECORD", .token (.t .pgsRecord)),
  (word "INTEGER", .token (.t .pgsInteger)),
  (word "REAL", .token (.t .pgsReal)),
  (word "STRING", .token (.t .pgsString)),
  (word "REGEX", .token (.t .pgsRegex)),
  (word "FILE", .token (.t .pgsFile)),
  (word "DATE", .token (.t .pgsDate)),
  (word "TIME", .token (.t .pgsTime)),
  (word "DATETIME", .token (.t .pgsDateTime)),
  (word "REFERENCE", .token (.t .pgsReference)),
  (cat (word "SET") (cat blanks (letter '@')), .tokenBefore .pgsSetAssign),
  (cat (word "DECLARE") (cat blanks (letter '@')), .tokenBefore .pgsDeclareAssgn),
  (word "BEGIN", .token (.t .pgsOpen)),
  (word "END", .token (.t .pgsClose)),
  (cat (letter '@') (star (alt L D)), .token (.t .pgsIdentifier))]

def numberRules : List InitialRule := [
  (plus D, .token (.t .pgsValInt)),
  (cat (star D) (cat (letter '.') (cat (plus D) (opt E))), .token (.t .pgsValReal)),
  (cat (plus D) E, .token (.t .pgsValReal)),
  (cat (plus D) (cat (letter '.') (cat (star D) (opt E))), .token (.t .pgsValReal))]

def operatorRules : List InitialRule := [
  (word "AND", .token (.t .pgsAndOp)),
  (word "OR", .token (.t .pgsOrOp)),
  (word "<=", .token (.t .pgsLeOp)),
  (word ">=", .token (.t .pgsGeOp)),
  (word "=", .token (.t .pgsEqOp)),
  (word "~=", .token (.t .pgsAeOp)),
  (word "<>", .token (.t .pgsNeOp)),
  (word ";", .token (.c ';')),
  (alt (letter '{') (word "<%"), .token (.c '{')),
  (alt (letter '}') (word "%>"), .token (.c '}')),
  (word ":", .token (.c ':')),
  (word "(", .token (.c '(')),
  (word ")", .token (.c ')')),
  (alt (word "[") (word "<:"), .token (.c '[')),
  (alt (word "]") (word ":>"), .token (.c ']')),
  (word ".", .token (.c '.')),
  (word ",", .token (.c ',')),
  (word "NOT", .token (.t .pgsNotOp)),
  (word "-", .token (.c '-')),
  (word "+", .token (.c '+')),
  (word "*", .token (.c '*')),
  (word "/", .token (.c '/')),
  (word "%", .token (.c '%')),
  (word "<", .token (.c '<')),
  (word ">", .token (.c '>')),
  (letter '\'', .string)]

/- `"BEGIN"[ \t]+"TRAN"` -/
def twoWords (first second : String) : Regular Char := cat (word first) (cat blanks (word second))

def queryRules : List InitialRule := [
  (word "ABORT", .query .pgsAbort),
  (word "ALTER", .query .pgsAlter),
  (word "ANALYZE", .query .pgsAnalyze),
  (twoWords "BEGIN" "TRAN", .query .pgsBegin),
  (twoWords "BEGIN" "WORK", .query .pgsBegin),
  (word "CHECKPOINT", .query .pgsCheckpoint),
  (word "CLOSE", .query .pgsCloseSt),
  (word "CLUSTER", .query .pgsCluster),
  (word "COMMENT", .query .pgsComment),
  (word "COMMIT", .query .pgsCommit),
  (word "COPY", .query .pgsCopy),
  (word "CREATE", .query .pgsCreate),
  (word "DEALLOCATE", .query .pgsDeallocate),
  (word "DECLARE", .query .pgsDeclare),
  (word "DELETE", .query .pgsDelete),
  (word "DISCARD", .query .pgsDiscard),
  (word "DROP", .query .pgsDrop),
  (twoWords "END" "TRANS", .query .pgsEndSt),
  (twoWords "END" "WORK", .query .pgsEndSt),
  (word "EXECUTE", .query .pgsExecute),
  (word "EXPLAIN", .query .pgsExplain),
  (word "FETCH", .query .pgsFetch),
  (word "GRANT", .query .pgsGrant),
  (word "INSERT", .query .pgsInsert),
  (word "LISTEN", .query .pgsListen),
  (word "LOAD", .query .pgsLoad),
  (word "LOCK", .query .pgsLock),
  (word "MOVE", .query .pgsMove),
  (word "NOTIFY", .query .pgsNotify),
  (word "PREPARE", .query .pgsPrepare),
  (word "REASSIGN", .query .pgsReassign),
  (word "REINDEX", .query .pgsReindex),
  (word "RELEASE", .query .pgsRelease),
  (word "RESET", .query .pgsReset),
  (word "REVOKE", .query .pgsRevoke),
  (word "ROLLBACK", .query .pgsRollback),
  (word "SAVEPOINT", .query .pgsSavepoint),
  (word "SELECT", .query .pgsSelect),
  (word "SET", .query .pgsSet),
  (word "SHOW", .query .pgsShow),
  (word "START", .query .pgsStart),
  (word "TRUNCATE", .query .pgsTruncate),
  (word "UNLISTEN", .query .pgsUnlisten),
  (word "UPDATE", .query .pgsUpdate),
  (word "VACUUM", .query .pgsVacuum),
  (word "VALUES", .query .pgsValues)]

def blankRules : List InitialRule := [
  (plus (test fun c => c = ' ' || (c = '\t' || (c = '\x0b' || c = '\x0c'))), .ignore),
  (letter '\r', .ignore),
  (letter '\n', .ignore),
  (anyLetter, .unknown)]

def initialRules : List InitialRule :=
  keywordRules ++ (numberRules ++ (operatorRules ++ (queryRules ++ blankRules)))

def valInt : InitialAction := .token (.t .pgsValInt)
def valReal : InitialAction := .token (.t .pgsValReal)

end PgAdmin.PgsScanner
