import PgAdmin.Cursor
import PgAdmin.PgsObjects

/-! A line of pg_hba.conf, read by a pointer scan and written from its fields. The reader accepts
exactly the texts of an entry: its words with any white space between them. The writer leaves out
the option of a method below ident. -/
namespace PgAdmin.pgHbaConfigLine
open Cursor PgsObjects

inductive pgHbaConnectType where
  | pgcLocal
  | pgcHost
  | pgcHostssl
  | pgcHostnossl
  | pgcInvalidconf
  deriving DecidableEq, Repr

inductive pgHbaMethod where
  | pgcTrust
  | pgcReject
  | pgcMd5
  | pgcCrypt
  | pgcPassword
  | pgcKrb4
  | pgcKrb5
  | pgcIdent
  | pgcPam
  | pgcLdap
  | pgcGss
  | pgcSspi
  | pgcCert
  | pgcPeer
  | pgcRadius
  | pgcInvalidmethod
  deriving DecidableEq, Repr

def pgHbaConnectTypeStrings : List Text :=
  ["local", "host", "hostssl", "hostnossl"].map String.toList

def pgHbaMethodStrings : List Text :=
  ["trust", "reject", "md5", "crypt", "password", "krb4", "krb5", "ident", "pam", "ldap", "gss",
    "sspi", "cert", "peer", "radius"].map String.toList

def FindToken (str : Text) (list : List Text) : Option ℕ := list.findIdx? (· = str)

def IsSpaceChar (c : Char) : Bool := c = '\t' || c = ' '

def SkipSpace (ptr : Text) : Text := ptr.dropWhile IsSpaceChar

def SkipNonspace (ptr : Text) : Text := ptr.dropWhile (!IsSpaceChar ·)

def skipQuoted : Bool → Text → Text
  | _, [] => []
  | quoted, c :: p =>
    if !quoted && IsSpaceChar c then c :: p
    else skipQuoted (if c = '"' then !quoted else quoted) p

def skipAddress (p3 : Text) : Text :=
  let p4 := SkipNonspace p3
  let hasCidr := '/' ∈ between p3 p4
  if hasCidr then p4 else SkipNonspace (SkipSpace p4)

end pgHbaConfigLine

open pgHbaConfigLine PgsObjects in
structure pgHbaConfigLine where
  text : Text := []
  database : Text := []
  user : Text := []
  ipaddress : Text := []
  option : Text := []
  connectType : pgHbaConnectType := .pgcInvalidconf
  method : pgHbaMethod := .pgcInvalidmethod
  isValid : Bool := false
  isComment : Bool := true
  changed : Bool := false
  deriving DecidableEq, Repr

namespace pgHbaConfigLine
open Cursor PgsObjects

def initMethod (l : pgHbaConfigLine) (p4 : Text) : pgHbaConfigLine :=
  let p5 := SkipNonspace p4
  match FindToken (between p4 p5) pgHbaMethodStrings with
  | some i => { l with method := .ofNat i, option := SkipSpace p5, isValid := true }
  | none => l

def initAddress (l : pgHbaConfigLine) (p3 : Text) : pgHbaConfigLine :=
  if l.connectType = .pgcLocal then l.initMethod p3
  else
    let p4 := skipAddress p3
    { l with ipaddress := between p3 p4 }.initMethod (SkipSpace p4)

def Init (l : pgHbaConfigLine) (line : Text) : pgHbaConfigLine :=
  let l := { l with isValid := false, connectType := .pgcInvalidconf, changed := false }
  if line.isEmpty then l
  else
    let isComment := (cStr line).head? = some '#'
    let p0 := if isComment then SkipSpace (cStr line).tail else cStr line
    let l := { l with text := line, isComment }
    let p1 := SkipNonspace p0
    match FindToken (between p0 p1) pgHbaConnectTypeStrings with
    | none => l
    | some i =>
      let p1 := SkipSpace p1
      let p2 := skipQuoted false p1
      let afterDatabase := SkipSpace p2
      let p3 := skipQuoted false afterDatabase
      initAddress
        { l with
          connectType := .ofNat i
          database := between p1 p2
          user := between afterDatabase p3 }
        (SkipSpace p3)

def create (line : Text) : pgHbaConfigLine := ({} : pgHbaConfigLine).Init line

def GetConnectType (l : pgHbaConfigLine) : Option Text :=
  pgHbaConnectTypeStrings[l.connectType.ctorIdx]?

def GetMethod (l : pgHbaConfigLine) : Option Text := pgHbaMethodStrings[l.method.ctorIdx]?

def tabspace : Text := "\t ".toList

def GetText (l : pgHbaConfigLine) : Option Text :=
  if !l.changed then some l.text
  else do
    let connectType ← l.GetConnectType
    let method ← l.GetMethod
    let str := if l.isComment then "# ".toList else []
    let str := str ++ connectType ++ tabspace ++ l.database ++ tabspace ++ l.user
    let str := if l.connectType = .pgcLocal then str else str ++ tabspace ++ l.ipaddress
    let str := str ++ tabspace ++ method
    let writesOption := pgHbaMethod.pgcIdent.ctorIdx ≤ l.method.ctorIdx ∧ l.option ≠ []
    some (if writesOption then str ++ tabspace ++ l.option else str)

end pgHbaConfigLine
end PgAdmin
