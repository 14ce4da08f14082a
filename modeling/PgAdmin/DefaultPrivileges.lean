import PgAdmin.AclText
import PgAdmin.Substitution

/-! Reading the default privileges of an object: the text of the list is unescaped as a whole and
loses its first brace, and findUserPrivs then takes one pair after the other off its front. -/
namespace PgAdmin.DefaultPrivileges
open PgsObjects (Text)
open AclText Substitution wxString

/- From a position on, with the quotes counted up to there, that at the position included: the
letters before the first equals sign after an even number of quotes, and the text behind it. None
when the text ends before; GetChar then reads on behind it. -/
def userLoop : ℕ → Text → Option (Text × Text)
  | _, [] => none
  | quoteCount, currChar :: s =>
    if currChar = '=' ∧ quoteCount % 2 = 0 then some ([], s)
    else (userLoop (if s.head? = some '"' then quoteCount + 1 else quoteCount) s).map
      fun (strUser, rest) => (currChar :: strUser, rest)

def commaLoop : ℕ → Text → Option Text
  | _, [] => none
  | quoteCount, currChar :: s =>
    if currChar = ',' ∧ quoteCount % 2 = 0 then some (currChar :: s)
    else commaLoop (if s.head? = some '"' then quoteCount + 1 else quoteCount) s

def SubString (s : Text) (first last : ℕ) : Text := Mid s first (last + 1 - first)

def findUser (strDefPrivs : Text) : Option (Text × Text) :=
  if ['"', '"'].isPrefixOf strDefPrivs then
    (userLoop 0 strDefPrivs).map fun (strUser, rest) =>
      (replaceAll ['"', '"'] ['"'] (SubString strUser 2 (strUser.length - 2)), rest)
  else
    let s := if ['"'].isPrefixOf strDefPrivs then strDefPrivs.drop 1 else strDefPrivs
    some (if s.head? = some '=' then publicName else BeforeFirst s '=',
      if '=' ∈ s then AfterFirst s '=' else s)

def skipGrantor (strDefPrivs : Text) : Option Text :=
  if ¬ ['"'].isPrefixOf strDefPrivs then some (AfterFirst strDefPrivs ',')
  else commaLoop 0 strDefPrivs

/- pgObject::findUserPrivs: none at the end of the text, or else the user, the privileges and what
is left of the text. The outer none is for a position behind the text. -/
def findUserPrivs (strDefPrivs : Text) : Option (Option ((Text × Text) × Text)) :=
  if strDefPrivs = [] then some none
  else
    (findUser strDefPrivs).bind fun (strUser, rest) =>
      let strPriv := BeforeFirst rest '/'
      (skipGrantor (rest.drop (strPriv.length + 2))).map fun left =>
        some ((strUser, strPriv), left)

/- The loop of ctlDefaultPrivilegesPanel::Update, for a number of calls at most: the pairs, when
the last of these calls finds none. -/
def pairs : ℕ → Text → Option (List (Text × Text))
  | 0, _ => none
  | calls + 1, strDefPrivs =>
    (findUserPrivs strDefPrivs).bind fun
      | none => some []
      | some (pair, left) => (pairs calls left).map (pair :: ·)

def unescape (strDefPrivs : Text) : Text :=
  replaceAll ['\\', '\\'] ['\\'] (replaceAll ['\\', '"'] ['"'] strDefPrivs)

def stripped (strDefPrivs : Text) : Text :=
  SubString (unescape strDefPrivs) 1 ((unescape strDefPrivs).length - 1)

variable {pattern : Pattern} {item : AclItem pattern} {name rest s t : Text}

def plainElement (s : Text) : Text := if needsQuotes s then '"' :: s ++ ['"'] else s

def backslashed (c : Char) : Text := if c = '\\' then ['\\', '\\'] else [c]

theorem quotesUnescaped (apart : s.getLast? = some '\\' → t.head? ≠ some '"') :
    replaceAll ['\\', '"'] ['"'] (s.flatMap escaped ++ t) =
      s.flatMap backslashed ++ replaceAll ['\\', '"'] ['"'] t := by
  induction s with
  | nil => rfl
  | cons c s ih =>
    have rest := ih fun last => apart (by
      rw [List.getLast?_cons, last]
      rfl)
    rw [List.flatMap_cons, List.flatMap_cons, List.append_assoc, List.append_assoc, ← rest]
    by_cases quote : c = '"'
    · subst quote
      exact replaceAllHit (List.cons_ne_nil _ _) ['"'] _
    · by_cases backslash : c = '\\'
      · subst backslash
        have next : (s.flatMap escaped ++ t).head? ≠ some '"' := by
          cases s with
          | nil => exact apart rfl
          | cons d s =>
            rw [List.flatMap_cons]
            by_cases special : d = '"' ∨ d = '\\'
            · simp [escaped, special]
            · have single : escaped d = [d] := if_neg special
              rw [single]
              simpa using fun same : d = '"' => special (.inl same)
        show replaceAll _ _ ('\\' :: '\\' :: (s.flatMap escaped ++ t)) = _
        rw [replaceAllMiss (by simp), replaceAllMiss]
        · rfl
        · rintro ⟨tail, same⟩
          rw [← (List.cons.inj same).2] at next
          exact next rfl
      · have single : escaped c = [c] := if_neg (by simp [quote, backslash])
        have kept : backslashed c = [c] := if_neg backslash
        rw [single, kept]
        exact replaceAllMiss fun start => backslash (List.cons_prefix_cons.mp start).1.symm

theorem backslashesUnescaped (s t : Text) :
    replaceAll ['\\', '\\'] ['\\'] (s.flatMap backslashed ++ t) =
      s ++ replaceAll ['\\', '\\'] ['\\'] t := by
  induction s with
  | nil => rfl
  | cons c s ih =>
    rw [List.flatMap_cons, List.append_assoc, List.cons_append, ← ih]
    by_cases backslash : c = '\\'
    · subst backslash
      exact replaceAllHit (List.cons_ne_nil _ _) ['\\'] _
    · have kept : backslashed c = [c] := if_neg backslash
      rw [kept]
      exact replaceAllMiss fun start => backslash (List.cons_prefix_cons.mp start).1.symm

theorem itemLast (item : AclItem pattern) : (aclitemout item).getLast? ≠ some '\\' := by
  intro last
  have grantor : (putid item.grantor).getLast? = some '\\' := by
    have nonempty : putid item.grantor ≠ [] := by
      unfold putid
      split
      · exact item.signed
      · simp
    obtain ⟨c, rest, whole⟩ := List.exists_cons_of_ne_nil nonempty
    rw [aclitemout, whole] at last
    rw [whole]
    simpa [List.getLast?_append, List.getLast?_cons] using last
  unfold putid at grantor
  split at grantor
  · rename_i word
    exact (safeLetter (List.all_eq_true.mp word _ (List.mem_of_getLast? grantor))).2.1 rfl
  · exact absurd (List.getLast?_concat.symm.trans grantor) (by decide)

theorem unquotedBackslashed {s : Text} (bare : needsQuotes s = false) :
    s.flatMap escaped = s ∧ s.flatMap backslashed = s := by
  have letters := unquotedElement bare
  refine ⟨escapedSelf fun c member => ⟨(letters c member).1, (letters c member).2.1⟩, ?_⟩
  calc s.flatMap backslashed = s.flatMap (fun c => [c]) :=
        List.flatMap_congr fun c member => if_neg (letters c member).2.1
    _ = s := List.flatMap_singleton' s

def halfElement (s : Text) : Text :=
  if needsQuotes s then '"' :: s.flatMap backslashed ++ ['"'] else s

theorem quotesElement (item : AclItem pattern) (t : Text) :
    replaceAll ['\\', '"'] ['"'] (element (aclitemout item) ++ t) =
      halfElement (aclitemout item) ++ replaceAll ['\\', '"'] ['"'] t := by
  have last := itemLast item
  have quote : ∀ t : Text, replaceAll ['\\', '"'] ['"'] ('"' :: t) =
      '"' :: replaceAll ['\\', '"'] ['"'] t := fun t => replaceAllMiss (by simp)
  unfold element halfElement
  split
  · rw [List.append_assoc, List.cons_append, quote,
      quotesUnescaped fun backslash => absurd backslash last, List.cons_append, List.nil_append,
      quote]
    simp
  · rename_i bare
    obtain ⟨escaped', backslashed'⟩ := unquotedBackslashed (by simpa using bare)
    have plain := quotesUnescaped (t := t) fun backslash => absurd backslash last
    rwa [escaped', backslashed'] at plain

theorem backslashesElement (item : AclItem pattern) (t : Text) :
    replaceAll ['\\', '\\'] ['\\'] (halfElement (aclitemout item) ++ t) =
      plainElement (aclitemout item) ++ replaceAll ['\\', '\\'] ['\\'] t := by
  have quote : ∀ t : Text, replaceAll ['\\', '\\'] ['\\'] ('"' :: t) =
      '"' :: replaceAll ['\\', '\\'] ['\\'] t := fun t => replaceAllMiss (by simp)
  unfold halfElement plainElement
  split
  · rw [List.append_assoc, List.cons_append, quote, backslashesUnescaped, List.cons_append,
      List.nil_append, quote]
    simp
  · rename_i bare
    have plain := backslashesUnescaped (aclitemout item) t
    rwa [(unquotedBackslashed (by simpa using bare)).2] at plain

def left (acl : List (AclItem pattern)) : Text :=
  [','].intercalate (acl.map fun item => plainElement (aclitemout item)) ++ ['}']

theorem replaceJoined {old new : Text} {f g : Text → Text}
    (plain : ∀ c ∈ ['{', ',', '}'], ∀ t, replaceAll old new (c :: t) = c :: replaceAll old new t)
    (acl : List (AclItem pattern))
    (each : ∀ item ∈ acl, ∀ t, replaceAll old new (f (aclitemout item) ++ t) =
      g (aclitemout item) ++ replaceAll old new t) :
    replaceAll old new ('{' :: [','].intercalate (acl.map fun item => f (aclitemout item)) ++
        ['}']) =
      '{' :: [','].intercalate (acl.map fun item => g (aclitemout item)) ++ ['}'] := by
  have closing : replaceAll old new ['}'] = ['}'] := plain '}' (by simp) []
  have inner : replaceAll old new ([','].intercalate (acl.map fun item => f (aclitemout item)) ++
      ['}']) = [','].intercalate (acl.map fun item => g (aclitemout item)) ++ ['}'] := by
    induction acl with
    | nil => exact closing
    | cons item acl ih =>
      have rest := ih fun later member => each later (List.mem_cons_of_mem item member)
      have here := each item List.mem_cons_self
      cases acl with
      | nil => simpa [closing] using here ['}']
      | cons next acl =>
        simp only [List.map_cons, List.intercalate_cons_cons, List.append_assoc] at rest ⊢
        rw [here, List.singleton_append, plain ',' (by simp), rest]
        rfl
  rw [List.cons_append, plain '{' (by simp), inner]
  rfl

/-- What Update hands over is the list without its first brace, and without the backslashes. -/
theorem strippedLeft (acl : List (AclItem pattern)) : stripped (aclText acl) = left acl := by
  have text : unescape (aclText acl) = '{' :: left acl := by
    unfold unescape aclText elements left
    rw [replaceJoined (g := halfElement) _ acl fun item _ => quotesElement item,
      replaceJoined (g := plainElement) _ acl fun item _ => backslashesElement item]
    · rfl
    · intro c member t
      exact replaceAllMiss fun start =>
        absurd ((List.cons_prefix_cons.mp start).1 ▸ member) (by decide)
    · intro c member t
      exact replaceAllMiss fun start =>
        absurd ((List.cons_prefix_cons.mp start).1 ▸ member) (by decide)
  rw [stripped, text]
  simp [SubString, Mid]

end PgAdmin.DefaultPrivileges
