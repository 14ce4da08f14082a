import PgAdmin.GrantStatements

/-! What GetGrant reads from the text of an access control list. An item is read back with its
privileges, and with the name of its grantee but for the quotes and backslashes in it, which
stay escaped, when there is neither a comma nor an equals sign in the names. -/
namespace PgAdmin.pgObject
open PgsObjects (Text)
open AclText Privileges wxString

variable {keyword : Text → Bool} {pattern : Pattern} {acl : List (AclItem pattern)}

theorem elementRead (s : Text) :
    (if (element s).take 1 = ['"'] then Mid (element s) 1 ((element s).length - 2)
      else element s) = s.flatMap escaped := by
  unfold element
  by_cases quoted : needsQuotes s = true
  · rw [if_pos quoted, if_pos (by simp)]
    simp [Mid]
  · have letters := unquotedElement (by simpa using quoted)
    have start : s.take 1 ≠ ['"'] := by
      intro same
      have member : '"' ∈ s := List.mem_of_mem_take (same ▸ List.mem_singleton_self '"')
      exact (letters _ member).1 rfl
    rw [if_neg quoted, if_neg start,
      escapedSelf fun c member => ⟨(letters c member).1, (letters c member).2.1⟩]

theorem unquotedPrinted (name : Text) : unquoted (printed name) = mangled name := by
  unfold printed
  by_cases word : name.all safe = true
  · have start : ¬ ['\\', '"'].isPrefixOf name = true := by
      intro start
      obtain ⟨rest, rfl⟩ := List.isPrefixOf_iff_prefix.mp start
      exact (safeLetter (List.all_eq_true.mp word '\\' (by simp))).2.1 rfl
    rw [if_pos word, unquoted, if_neg (fun both => start both.1), mangled, if_pos word]
  · have start : ['\\', '"'].isPrefixOf ('\\' :: '"' :: mangled name ++ ['\\', '"']) = true :=
      List.isPrefixOf_iff_prefix.mpr ⟨mangled name ++ ['\\', '"'], rfl⟩
    have ends : ['\\', '"'].isSuffixOf ('\\' :: '"' :: mangled name ++ ['\\', '"']) = true :=
      List.isSuffixOf_iff_suffix.mpr ⟨'\\' :: '"' :: mangled name, rfl⟩
    rw [if_neg word, unquoted, if_pos ⟨start, ends⟩]
    simp [Mid]

def readAs : Grantee → Grantee
  | .world => .world
  | .role name => .role (mangled name)
  | .group name => .group (mangled name)

def granteeUser (keyword : Text → Bool) : Grantee → Text
  | .world => publicName
  | .role name => Identifier.qtIdent keyword (mangled name)
  | .group name => groupKeyword ++ Identifier.qtIdent keyword (mangled name)

def granteeCompared : Grantee → Option Text
  | .world => none
  | .role name => some (printed name)
  | .group name => some (printed name)

theorem printedNotGroup {name : Text} : (printed name).take 6 ≠ groupLabel := by
  intro same
  unfold printed at same
  split at same
  · rename_i word
    have blank : ' ' ∈ name :=
      List.mem_of_mem_take (show ' ' ∈ name.take 6 from same ▸ by decide)
    exact (safeLetter (List.all_eq_true.mp word ' ' blank)).2.2.2.1 rfl
  · exact absurd (List.cons.inj same).1 (by decide)

theorem printedNonempty {name : Text} (nonempty : name ≠ []) : printed name ≠ [] := by
  unfold printed
  split
  · exact nonempty
  · simp

/-- An item without an equals sign in the name of its grantee is read back. -/
theorem entryItem (item : AclItem pattern) (free : '=' ∉ item.grantee.name) :
    entry keyword (element (aclitemout item)) = ⟨granteeUser keyword item.grantee,
      privilegeText item.privileges, granteeCompared item.grantee⟩ := by
  have stop : '=' ∉ granteePrinted item.grantee := by
    cases grantee : item.grantee with
    | world => simp [granteePrinted]
    | role name =>
      rw [grantee] at free
      exact printedFree free (by decide)
    | group name =>
      rw [grantee] at free
      intro member
      rcases List.mem_append.mp member with label | inside
      · exact absurd label (by decide)
      · exact printedFree free (by decide) inside
  have slash : '/' ∉ privilegeText item.privileges := privilegeFree item (by decide)
  have user : BeforeFirst ((aclitemout item).flatMap escaped) '=' =
      granteePrinted item.grantee := by
    rw [escapedItem, List.append_assoc]
    exact beforeFirstStop stop _
  have str : BeforeFirst (AfterFirst ((aclitemout item).flatMap escaped) '=') '/' =
      privilegeText item.privileges := by
    rw [escapedItem, List.append_assoc]
    show BeforeFirst (AfterFirst (_ ++ '=' :: (privilegeText item.privileges ++ _)) '=') '/' = _
    rw [afterFirstStop stop]
    exact beforeFirstStop slash _
  unfold entry
  simp only [elementRead, user, str]
  rcases item.named with public' | ⟨nonempty, -⟩
  · simp [public', granteePrinted, granteeUser, granteeCompared]
  · cases grantee : item.grantee with
    | world => rw [grantee] at nonempty; exact absurd rfl nonempty
    | role name =>
      rw [grantee] at nonempty
      have some : printed name ≠ [] := printedNonempty nonempty
      simp only [granteePrinted, if_neg some, if_neg printedNotGroup, granteeUser,
        granteeCompared, unquotedPrinted]
    | group name =>
      have label : (groupLabel ++ printed name).take 6 = groupLabel := rfl
      have rest : (groupLabel ++ printed name).drop 6 = printed name := rfl
      simp only [granteePrinted, label, rest, granteeUser, granteeCompared, unquotedPrinted]
      rfl

theorem mangledNonempty {name : Text} (nonempty : name ≠ []) : mangled name ≠ [] := by
  by_cases clean : '"' ∉ name ∧ '\\' ∉ name
  · rwa [mangledSelf clean]
  · exact List.ne_nil_of_mem (mangledLonger (by tauto)).1

theorem mangledNotPublic {name : Text} (other : name ≠ publicName) :
    mangled name ≠ publicName := by
  by_cases clean : '"' ∉ name ∧ '\\' ∉ name
  · rwa [mangledSelf clean]
  · intro same
    have escape := (mangledLonger (by tauto : '"' ∈ name ∨ '\\' ∈ name)).1
    rw [same] at escape
    exact absurd escape (by decide)

theorem qtIdentStart (name : Text) :
    ∀ c ∈ (Identifier.qtIdent keyword name).head?, c = '"' ∨ c.isLower = true ∨ c = '_' := by
  intro c first
  unfold Identifier.qtIdent at first
  split at first
  · rename_i empty
    simp [List.length_eq_zero_iff.mp empty] at first
  · split at first
    · exact .inl (by simpa using first.symm)
    · rename_i bare
      exact .inr ((Identifier.unquotedLetters keyword (by simpa using bare)).2.1 c first)

theorem qtIdentNotGroup (name : Text) :
    ¬ groupKeyword.isPrefixOf (Identifier.qtIdent keyword name) = true := by
  intro start
  obtain ⟨rest, same⟩ := List.isPrefixOf_iff_prefix.mp start
  have first : 'G' ∈ (Identifier.qtIdent keyword name).head? := same ▸ rfl
  rcases qtIdentStart name 'G' first with quote | lower | underscore
  · exact absurd quote (by decide)
  · exact absurd lower (by decide)
  · exact absurd underscore (by decide)

theorem qtIdentNotPublic {name : Text} (other : name ≠ publicName) :
    Identifier.qtIdent keyword name ≠ publicName := by
  intro same
  unfold Identifier.qtIdent at same
  split at same
  · exact other same
  · split at same
    · exact absurd (List.cons.inj same).1 (by decide)
    · exact other same

theorem readRole {name : Text} (named : Named name) :
    readGrantee keyword (Identifier.qtIdent keyword name) = some (.role name) := by
  rw [readGrantee, if_neg (qtIdentNotPublic named.2), if_neg (qtIdentNotGroup name),
    Identifier.readQtIdent keyword named.1, Option.map_some, if_neg named.2]

theorem readPublic : readGrantee keyword (Identifier.qtIdent keyword publicName) = some .world := by
  unfold readGrantee
  split
  · rfl
  · rw [if_neg (qtIdentNotGroup publicName),
      Identifier.readQtIdent keyword (by decide : publicName ≠ []), Option.map_some, if_pos rfl]

theorem readGroup {name : Text} (nonempty : name ≠ []) :
    readGrantee keyword (groupKeyword ++ Identifier.qtIdent keyword name) = some (.group name) := by
  have other : groupKeyword ++ Identifier.qtIdent keyword name ≠ publicName := by
    intro same
    exact absurd (List.cons.inj same).1 (by decide)
  have rest : (groupKeyword ++ Identifier.qtIdent keyword name).drop 6 =
      Identifier.qtIdent keyword name := rfl
  rw [readGrantee, if_neg other, if_pos (List.isPrefixOf_iff_prefix.mpr ⟨_, rfl⟩), rest,
    Identifier.readQtIdent keyword nonempty, Option.map_some]

theorem readUser {grantee : Grantee} (named : grantee = .world ∨ Named grantee.name) :
    readGrantee keyword (granteeUser keyword grantee) = some (readAs grantee) := by
  cases grantee with
  | world => exact if_pos rfl
  | role name =>
    have known : Named name := by simpa [Grantee.name] using named
    exact readRole ⟨mangledNonempty known.1, mangledNotPublic known.2⟩
  | group name =>
    have known : Named name := by simpa [Grantee.name] using named
    exact readGroup (mangledNonempty known.1)

theorem unquotedSubset (user : Text) : ∀ c ∈ unquoted user, c ∈ user := by
  intro c member
  unfold unquoted at member
  split at member
  · exact List.mem_of_mem_drop (List.mem_of_mem_take member)
  · exact member

theorem readIdentLetters {name : Text} {who : Text}
    (read : Identifier.read keyword (Identifier.qtIdent keyword name) = some who) : who = name := by
  by_cases empty : name = []
  · rw [empty] at read
    exact nomatch read
  · rw [Identifier.readQtIdent keyword empty] at read
    exact (Option.some.inj read).symm

theorem entryLetters (token : Text) {c : Char} (absent : c = '=' ∨ c ∉ token) :
    (∀ who, readGrantee keyword (entry keyword token).user = some who → c ∉ who.name) ∧
      ∀ tmpUser ∈ (entry keyword token).tmpUser, c ∉ tmpUser := by
  obtain ⟨str, whole, inside⟩ : ∃ str, (if token.take 1 = ['"'] then
      Mid token 1 (token.length - 2) else token) = str ∧ ∀ c ∈ str, c ∈ token := by
    refine ⟨_, rfl, fun c member => ?_⟩
    split at member
    · exact List.mem_of_mem_drop (List.mem_of_mem_take member)
    · exact member
  have free : c ∉ BeforeFirst str '=' := by
    rcases absent with rfl | absent
    · intro member
      have other := List.mem_takeWhile_imp member
      simp at other
    · exact fun member => absent (inside c ((List.takeWhile_subset _) member))
  unfold entry
  simp only [whole]
  split
  · refine ⟨fun who read => ?_, fun tmpUser none => nomatch none⟩
    have world : readGrantee keyword publicName = some .world := if_pos rfl
    rw [world] at read
    cases read
    exact List.not_mem_nil
  · split
    · refine ⟨fun who read => ?_, fun tmpUser same => ?_⟩
      · have start : groupKeyword.isPrefixOf (groupKeyword ++ Identifier.qtIdent keyword
            (unquoted ((BeforeFirst str '=').drop 6))) = true :=
          List.isPrefixOf_iff_prefix.mpr ⟨_, rfl⟩
        have other : groupKeyword ++ Identifier.qtIdent keyword
            (unquoted ((BeforeFirst str '=').drop 6)) ≠ publicName := by
          intro same
          exact absurd (List.cons.inj same).1 (by decide)
        rw [readGrantee, if_neg other, if_pos start] at read
        obtain ⟨name, found, rfl⟩ := Option.map_eq_some_iff.mp read
        rw [show name = _ from readIdentLetters found]
        exact fun member => free (List.mem_of_mem_drop (unquotedSubset _ c member))
      · cases same
        exact fun member => free (List.mem_of_mem_drop member)
    · refine ⟨fun who read => ?_, fun tmpUser same => ?_⟩
      · unfold readGrantee at read
        split at read
        · cases read
          exact List.not_mem_nil
        · rw [if_neg (qtIdentNotGroup _)] at read
          obtain ⟨name, found, rfl⟩ := Option.map_eq_some_iff.mp read
          split
          · exact List.not_mem_nil
          · rw [show name = _ from readIdentLetters found]
            exact fun member => free (unquotedSubset _ c member)
      · cases same
        exact free

theorem elementNonempty (s : Text) : element s ≠ [] := by
  unfold element
  split
  · simp
  · rename_i bare
    rintro rfl
    exact bare rfl

theorem joinedNonempty (nonempty : acl ≠ []) : [','].intercalate (elements acl) ≠ [] := by
  obtain ⟨item, rest, rfl⟩ := List.exists_cons_of_ne_nil nonempty
  cases rest with
  | nil => simpa [elements] using elementNonempty _
  | cons next rest =>
    rw [elements, List.map_cons, List.map_cons, List.intercalate_cons_cons]
    simp [elementNonempty]

theorem tokensElements (acl : List (AclItem pattern)) (nonempty : acl ≠ []) :
    queryTokenizer.tokens ',' (Mid (aclText acl) 1 ((aclText acl).length - 2)) =
      ([','].intercalate (elements acl)).splitOn ',' := by
  have inner : Mid (aclText acl) 1 ((aclText acl).length - 2) =
      [','].intercalate (elements acl) := by simp [aclText, Mid]
  have each : ∀ s ∈ elements acl, queryTokenizer.closes ',' false s = some false := by
    intro s member
    obtain ⟨item, -, rfl⟩ := List.mem_map.mp member
    exact elementCloses item
  have closed := queryTokenizer.closesJoined (by decide : ',' ≠ '"') each
  rw [inner]
  exact queryTokenizer.tokensPlain (by decide) (joinedNonempty nonempty) closed

theorem tokensItems (acl : List (AclItem pattern)) (nonempty : acl ≠ [])
    (free : ∀ item ∈ acl, ',' ∉ item.grantee.name ∧ ',' ∉ item.grantor) :
    ([','].intercalate (elements acl)).splitOn ',' = elements acl := by
  refine List.splitOn_intercalate ',' (fun s member => ?_) (by simpa [elements] using nonempty)
  obtain ⟨item, inside, rfl⟩ := List.mem_map.mp member
  obtain ⟨grantee, grantor⟩ := free item inside
  rw [elementComma]
  exact itemComma item grantee grantor

end PgAdmin.pgObject
