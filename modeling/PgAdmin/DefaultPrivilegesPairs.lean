import PgAdmin.DefaultPrivileges

/-! The pairs that are found in a list of default privileges. An entry is taken off as a whole when
its grantor can be skipped: the name is a word, and of two letters when the grantee's is quoted;
or it is quoted itself, without a comma and without a quote at its start. -/
namespace PgAdmin.DefaultPrivileges
open PgsObjects (Text)
open AclText Substitution wxString

variable {pattern : Pattern} {item : AclItem pattern} {name rest s t : Text}

def isWord (name : Text) : Bool := name.all safe

def shownName : Grantee → Text
  | .world => publicName
  | .role name => name
  | .group name => groupLabel ++ name

def pair (item : AclItem pattern) : Text × Text :=
  (shownName item.grantee, privilegeText item.privileges)

/- The grantor is passed over up to the comma after it. -/
def Skippable (item : AclItem pattern) : Prop :=
  if isWord item.grantor then isWord item.grantee.name ∨ 2 ≤ item.grantor.length
  else ',' ∉ item.grantor ∧ item.grantor.head? ≠ some '"'

def loopFrom (quoteCount : ℕ) (s : Text) : Option (Text × Text) :=
  userLoop (if s.head? = some '"' then quoteCount + 1 else quoteCount) s

theorem loopFromCons {quoteCount : ℕ} {c : Char} (go : ¬ (c = '=' ∧ quoteCount % 2 = 0))
    (s : Text) : loopFrom quoteCount (c :: s) =
      (loopFrom (if c = '"' then quoteCount + 1 else quoteCount) s).map
        fun (strUser, rest) => (c :: strUser, rest) := by
  unfold loopFrom
  by_cases quote : c = '"'
  · subst quote
    simp [userLoop]
  · have plain : ¬ (c :: s).head? = some '"' := by simpa using quote
    rw [if_neg plain, userLoop, if_neg go, if_neg quote]

theorem loopQuoted {quoteCount : ℕ} (odd : quoteCount % 2 = 1) (name rest : Text) :
    loopFrom quoteCount (name.flatMap quoteDoubled ++ '"' :: '=' :: rest) =
      some (name.flatMap quoteDoubled ++ ['"'], rest) := by
  induction name generalizing quoteCount with
  | nil =>
    have even : (quoteCount + 1) % 2 = 0 := by omega
    rw [List.flatMap_nil, List.nil_append, loopFromCons (by simp)]
    simp [loopFrom, userLoop, even]
  | cons c name ih =>
    rw [List.flatMap_cons, List.append_assoc]
    by_cases quote : c = '"'
    · subst quote
      have later : (quoteCount + 1 + 1) % 2 = 1 := by omega
      show loopFrom quoteCount ('"' :: '"' :: (name.flatMap quoteDoubled ++ '"' :: '=' :: rest)) = _
      rw [loopFromCons (by simp), loopFromCons (by simp), if_pos rfl, if_pos rfl, ih later]
      rfl
    · have single : quoteDoubled c = [c] := if_neg quote
      rw [single, List.singleton_append, loopFromCons (by omega), if_neg quote, ih odd]
      rfl

theorem quotesCollapsed (name : Text) :
    replaceAll ['"', '"'] ['"'] (name.flatMap quoteDoubled) = name := by
  induction name with
  | nil => rfl
  | cons c name ih =>
    rw [List.flatMap_cons]
    by_cases quote : c = '"'
    · subst quote
      exact (replaceAllHit (List.cons_ne_nil _ _) ['"'] _).trans (by rw [ih]; rfl)
    · have single : quoteDoubled c = [c] := if_neg quote
      rw [single, List.singleton_append,
        replaceAllMiss fun start => quote (List.cons_prefix_cons.mp start).1.symm, ih]

theorem findQuoted (name rest : Text) :
    findUser ('"' :: '"' :: name.flatMap quoteDoubled ++ '"' :: '=' :: rest) = some (name, rest) := by
  have start : ['"', '"'].isPrefixOf
      ('"' :: '"' :: name.flatMap quoteDoubled ++ '"' :: '=' :: rest) = true :=
    List.isPrefixOf_iff_prefix.mpr ⟨_, rfl⟩
  have loop : userLoop 0 ('"' :: '"' :: name.flatMap quoteDoubled ++ '"' :: '=' :: rest) =
      some ('"' :: '"' :: name.flatMap quoteDoubled ++ ['"'], rest) := by
    show userLoop 0 ('"' :: '"' :: (name.flatMap quoteDoubled ++ '"' :: '=' :: rest)) = _
    rw [userLoop, if_neg (by simp)]
    show (loopFrom 0 ('"' :: (name.flatMap quoteDoubled ++ '"' :: '=' :: rest))).map _ = _
    rw [loopFromCons (by simp), if_pos rfl, loopQuoted rfl]
    rfl
  rw [findUser, if_pos start, loop]
  have inner : SubString ('"' :: '"' :: name.flatMap quoteDoubled ++ ['"']) 2
      (('"' :: '"' :: name.flatMap quoteDoubled ++ ['"']).length - 2) =
        name.flatMap quoteDoubled := by
    simp [SubString, Mid]
  simp only [Option.map_some, inner, quotesCollapsed]

theorem findWord (word : isWord name = true) (quoted : Bool) (rest : Text) :
    findUser ((if quoted then ['"'] else []) ++ name ++ '=' :: rest) =
      some (if name = [] then publicName else name, rest) := by
  have letters : ∀ c ∈ name, c ≠ '"' ∧ c ≠ '=' := fun c member => by
    have here := safeLetter (List.all_eq_true.mp word c member)
    exact ⟨here.1, here.2.2.2.2⟩
  have first : (name ++ '=' :: rest).head? ≠ some '"' := by
    cases name with
    | nil => simp
    | cons c name => simpa using (letters c List.mem_cons_self).1
  have free : '=' ∉ name := fun member => (letters _ member).2 rfl
  have whole : (if (name ++ '=' :: rest).head? = some '=' then publicName
      else BeforeFirst (name ++ '=' :: rest) '=', if '=' ∈ name ++ '=' :: rest then
        AfterFirst (name ++ '=' :: rest) '=' else name ++ '=' :: rest) =
      (if name = [] then publicName else name, rest) := by
    have member : '=' ∈ name ++ '=' :: rest := by simp
    rw [beforeFirstStop free, afterFirstStop free, if_pos member]
    cases name with
    | nil => rfl
    | cons c name =>
      have other : ¬ (c :: name ++ '=' :: rest).head? = some '=' := by
        simpa using (letters c List.mem_cons_self).2
      rw [if_neg other, if_neg (List.cons_ne_nil c name)]
  have plain : ¬ ['"'].isPrefixOf (name ++ '=' :: rest) = true := by
    rw [List.isPrefixOf_iff_prefix]
    rintro ⟨tail, same⟩
    rw [← same] at first
    exact first rfl
  cases quoted with
  | true =>
    have start : ¬ ['"', '"'].isPrefixOf ('"' :: (name ++ '=' :: rest)) = true := by
      rw [List.isPrefixOf_iff_prefix, List.cons_prefix_cons, ← List.isPrefixOf_iff_prefix]
      exact fun both => plain both.2
    have one : ['"'].isPrefixOf ('"' :: (name ++ '=' :: rest)) = true := by simp
    show findUser ('"' :: (name ++ '=' :: rest)) = _
    rw [findUser, if_neg start, if_pos one]
    exact congrArg some whole
  | false =>
    have start : ¬ ['"', '"'].isPrefixOf (name ++ '=' :: rest) = true := by
      rw [List.isPrefixOf_iff_prefix] at plain ⊢
      exact fun both => plain ((List.prefix_append ['"'] ['"']).trans both)
    show findUser (name ++ '=' :: rest) = _
    rw [findUser, if_neg start, if_neg plain]
    exact congrArg some whole

theorem findPrivs (item : AclItem pattern) {user : Text} {grantor more : Text} {l : Char}
    (text : findUser s = some (user, privilegeText item.privileges ++ '/' :: l :: grantor ++ more))
    (nonempty : s ≠ []) :
    findUserPrivs s = (skipGrantor (grantor ++ more)).map fun left =>
      some ((user, privilegeText item.privileges), left) := by
  have slash : '/' ∉ privilegeText item.privileges := privilegeFree item (by decide)
  have priv : BeforeFirst (privilegeText item.privileges ++ '/' :: l :: grantor ++ more) '/' =
      privilegeText item.privileges := by
    rw [List.append_assoc]
    exact beforeFirstStop slash _
  rw [findUserPrivs, if_neg nonempty, text, Option.bind_some]
  simp only [priv]
  congr 2
  rw [List.append_assoc, ← List.drop_drop, List.drop_left]
  rfl

theorem putidWord (word : isWord name = true) : putid name = name := if_pos word

theorem putidQuoted (quoted : ¬ isWord name = true) :
    putid name = '"' :: name.flatMap quoteDoubled ++ ['"'] := if_neg quoted

theorem wordBare {s : Text} (letters : ∀ c ∈ s, safe c = true ∨ c ∈ ['=', '*', '/'])
    (equals : '=' ∈ s) : needsQuotes s = false := by
  have nonempty : s ≠ [] := List.ne_nil_of_mem equals
  have notNull : s.map Char.toUpper ≠ "NULL".toList := by
    intro same
    have inside : '=' ∈ s.map Char.toUpper := List.mem_map.mpr ⟨'=', equals, by decide⟩
    rw [same] at inside
    exact absurd inside (by decide)
  have plain : s.any (fun c => c ∈ ['"', '\\', '{', '}', ','] || isSpace c) = false := by
    refine List.any_eq_false.mpr fun c member special => ?_
    have known : c ∈ ['"', '\\', '{', '}', ',', ' ', '\t', '\n', '\x0b', '\x0c', '\r'] := by
      simpa [isSpace, or_assoc] using special
    have other : ∀ c ∈ ['"', '\\', '{', '}', ',', ' ', '\t', '\n', '\x0b', '\x0c', '\r'],
        safe c = false ∧ c ∉ ['=', '*', '/'] := by
      intro c member
      fin_cases member <;> decide
    obtain ⟨notSafe, notSign⟩ := other c known
    rcases letters c member with ok | sign
    · exact absurd (ok.symm.trans notSafe) (by decide)
    · exact notSign sign
  simp only [needsQuotes, nonempty, notNull, plain, decide_false, Bool.or_false]

theorem quotedText {s : Text} (inside : '"' ∈ s) : needsQuotes s = true := by
  have any : s.any (fun c => c ∈ ['"', '\\', '{', '}', ','] || isSpace c) = true :=
    List.any_eq_true.mpr ⟨'"', inside, by simp⟩
  simp only [needsQuotes, any, Bool.or_true, Bool.true_or]

theorem quotedItem (item : AclItem pattern) (roles : ∀ name, item.grantee ≠ .group name) :
    needsQuotes (aclitemout item) = !(isWord item.grantee.name && isWord item.grantor) := by
  have grantee : granteeText item.grantee = putid item.grantee.name := by
    cases found : item.grantee with
    | world => rfl
    | role name => rfl
    | group name => exact absurd found (roles name)
  by_cases words : isWord item.grantee.name = true ∧ isWord item.grantor = true
  · rw [words.1, words.2]
    refine wordBare (fun c member => ?_) (by simp [aclitemout])
    have known : ∀ c ∈ '*' :: rights, safe c = true ∨ c ∈ ['=', '*', '/'] := by
      intro c member
      fin_cases member <;> decide
    rw [aclitemout, grantee, putidWord words.1, putidWord words.2, List.append_assoc,
      List.mem_append] at member
    rcases member with first | rest
    · exact .inl (List.all_eq_true.mp words.1 c first)
    · rcases List.mem_cons.mp rest with rfl | rest
      · exact .inr (by decide)
      · rcases List.mem_append.mp rest with privilege | rest
        · exact known c ((privilegeLetter item privilege).elim (List.mem_cons_of_mem _)
            fun star => star ▸ List.mem_cons_self)
        · rcases List.mem_cons.mp rest with rfl | last
          · exact .inr (by decide)
          · exact .inl (List.all_eq_true.mp words.2 c last)
  · have quote : ∀ name : Text, ¬ isWord name = true → '"' ∈ putid name := by
      intro name unsafe'
      rw [putidQuoted unsafe']
      simp
    have inside : '"' ∈ aclitemout item := by
      rw [aclitemout, grantee]
      by_cases word : isWord item.grantee.name = true
      · have last := quote _ fun other => words ⟨word, other⟩
        simp [last]
      · simp [quote _ word]
    rw [quotedText inside]
    cases first : isWord item.grantee.name with
    | false => rfl
    | true =>
      cases second : isWord item.grantor with
      | false => rfl
      | true => exact absurd ⟨first, second⟩ words

def closing (item : AclItem pattern) : Text :=
  if isWord item.grantee.name && isWord item.grantor then [] else ['"']

theorem findUserItem (item : AclItem pattern) (roles : ∀ name, item.grantee ≠ .group name)
    (tail : Text) : findUser (plainElement (aclitemout item) ++ tail) =
      some (shownName item.grantee, privilegeText item.privileges ++ '/' :: putid item.grantor ++
        (closing item ++ tail)) := by
  have grantee : granteeText item.grantee = putid item.grantee.name := by
    cases found : item.grantee with
    | world => rfl
    | role name => rfl
    | group name => exact absurd found (roles name)
  have shown : (if item.grantee.name = [] then publicName else item.grantee.name) =
      shownName item.grantee := by
    cases found : item.grantee with
    | world => rfl
    | role name =>
      have named : Named name := by simpa [found, Grantee.name] using item.named
      exact if_neg named.1
    | group name => exact absurd found (roles name)
  rw [plainElement, quotedItem item roles, closing]
  by_cases word : isWord item.grantee.name = true
  · have found := findWord word
    rw [word, Bool.true_and, aclitemout, grantee, putidWord word]
    by_cases last : isWord item.grantor = true
    · rw [last]
      have plain := found false (privilegeText item.privileges ++ '/' :: putid item.grantor ++ tail)
      rw [shown] at plain
      simpa using plain
    · rw [Bool.not_eq_true] at last
      rw [last]
      have plain := found true (privilegeText item.privileges ++ '/' :: putid item.grantor ++
        ('"' :: tail))
      rw [shown] at plain
      simpa using plain
  · have quoted := findQuoted item.grantee.name (privilegeText item.privileges ++
      '/' :: putid item.grantor ++ ('"' :: tail))
    have named : shownName item.grantee = item.grantee.name := by
      rw [← shown, if_neg]
      rintro none
      rw [none] at word
      exact word rfl
    rw [aclitemout, grantee, named]
    rw [putidQuoted word]
    rw [Bool.not_eq_true] at word
    rw [word]
    simpa using quoted

theorem grantorSkipped (skippable : Skippable item) : ∃ l grantor,
    putid item.grantor = l :: grantor ∧ (grantor ++ closing item).head? ≠ some '"' ∧
      ',' ∉ grantor ++ closing item := by
  unfold Skippable at skippable
  unfold closing
  by_cases word : isWord item.grantor = true
  · rw [if_pos word] at skippable
    obtain ⟨l, grantor, whole⟩ := List.exists_cons_of_ne_nil item.signed
    have letters : ∀ c ∈ grantor, c ≠ '"' ∧ c ≠ ',' := fun c member => by
      have inside : c ∈ item.grantor := whole ▸ List.mem_cons_of_mem l member
      have here := safeLetter (List.all_eq_true.mp word c inside)
      exact ⟨here.1, here.2.2.1⟩
    refine ⟨l, grantor, (putidWord word).trans whole, ?_, ?_⟩
    · cases grantor with
      | nil =>
        rw [whole] at skippable
        have short : ¬ 2 ≤ [l].length := by simp
        have named := skippable.resolve_right short
        simp [named, word]
      | cons c grantor => simpa using (letters c List.mem_cons_self).1
    · rw [List.mem_append, not_or]
      refine ⟨fun member => (letters _ member).2 rfl, ?_⟩
      split <;> decide
  · rw [if_neg word] at skippable
    obtain ⟨l, grantor, whole⟩ := List.exists_cons_of_ne_nil item.signed
    rw [Bool.not_eq_true] at word
    refine ⟨'"', item.grantor.flatMap quoteDoubled ++ ['"'],
      putidQuoted (by rw [word]; decide), ?_, ?_⟩
    · rw [whole] at skippable ⊢
      have other : l ≠ '"' := by simpa using skippable.2
      have single : quoteDoubled l = [l] := if_neg other
      rw [List.flatMap_cons, single]
      simpa using other
    · have free : ',' ∉ item.grantor.flatMap quoteDoubled := fun member =>
        skippable.1 (doubledLetters member)
      rw [word]
      simp [free]

theorem skipGrantorEnd {X : Text} (start : X.head? ≠ some '"') (free : ',' ∉ X) (next : Text) :
    skipGrantor (X ++ ',' :: next) = some next ∧ skipGrantor (X ++ ['}']) = some [] := by
  have plain : ∀ c rest, c ≠ '"' → ¬ ['"'].isPrefixOf (X ++ c :: rest) = true := by
    intro c rest other same
    rw [List.isPrefixOf_iff_prefix] at same
    cases X with
    | nil => exact other (List.cons_prefix_cons.mp same).1.symm
    | cons l X => exact start (congrArg some (List.cons_prefix_cons.mp same).1.symm)
  have absent : ',' ∉ X ++ ['}'] := by simpa using free
  have none : AfterFirst (X ++ ['}']) ',' = [] := by
    have all : ∀ c ∈ X ++ ['}'], decide (c ≠ ',') = true := fun c member =>
      decide_eq_true fun same => absent (same ▸ member)
    rw [AfterFirst, List.dropWhile_eq_nil_iff.mpr all]
    rfl
  constructor
  · rw [skipGrantor, if_pos (plain ',' next (by decide)), afterFirstStop free]
  · rw [skipGrantor, if_pos (plain '}' [] (by decide)), none]

/-- An item is taken off the front of the list. -/
theorem itemTaken (item : AclItem pattern) (roles : ∀ name, item.grantee ≠ .group name)
    (skippable : Skippable item) (next : Text) :
    findUserPrivs (plainElement (aclitemout item) ++ ',' :: next) =
        some (some (pair item, next)) ∧
      findUserPrivs (plainElement (aclitemout item) ++ ['}']) = some (some (pair item, [])) := by
  obtain ⟨l, grantor, whole, start, free⟩ := grantorSkipped skippable
  have found := fun tail => findUserItem item roles tail
  simp only [whole] at found
  have ends := skipGrantorEnd start free next
  constructor
  · rw [findPrivs item (found (',' :: next)) (by simp), ← List.append_assoc, ends.1]
    rfl
  · rw [findPrivs item (found ['}']) (by simp), ← List.append_assoc, ends.2]
    rfl

/-- Every entry is found once, in order, and then none. -/
theorem defaultPrivilegesRead (acl : List (AclItem pattern)) (nonempty : acl ≠ [])
    (roles : ∀ item ∈ acl, ∀ name, item.grantee ≠ .group name)
    (skippable : ∀ item ∈ acl, Skippable item) :
    pairs (acl.length + 1) (stripped (aclText acl)) = some (acl.map pair) := by
  rw [strippedLeft]
  induction acl with
  | nil => exact absurd rfl nonempty
  | cons item acl ih =>
    have taken := fun next => itemTaken item (roles item List.mem_cons_self)
      (skippable item List.mem_cons_self) next
    cases acl with
    | nil =>
      have only : left [item] = plainElement (aclitemout item) ++ ['}'] := by simp [left]
      rw [only, List.length_singleton, pairs, (taken []).2]
      rfl
    | cons next acl =>
      have more : left (item :: next :: acl) = plainElement (aclitemout item) ++
          ',' :: left (next :: acl) := by
        simp [left, List.intercalate_cons_cons]
      have rest := ih (List.cons_ne_nil next acl)
        (fun later member => roles later (List.mem_cons_of_mem item member))
        (fun later member => skippable later (List.mem_cons_of_mem item member))
      rw [more, List.length_cons, pairs, (taken _).1]
      show (pairs ((next :: acl).length + 1) (left (next :: acl))).map _ = _
      rw [rest]
      rfl

def functionPattern : Pattern where
  letters := ['X']
  known := by simp [rights]

def toSpaced (grantor : Text) (signed : grantor ≠ []) : AclItem functionPattern where
  grantee := .role ['a', ' ', 'b']
  privileges := [('X', false)]
  grantor := grantor
  named := .inr ⟨by decide, by decide⟩
  inside := by simp [functionPattern]
  granted := List.cons_ne_nil _ _
  signed := signed

theorem defaultPrivilegesReadTwice : pairs 3 (stripped (aclText
    [toSpaced ['b', 'o'] (List.cons_ne_nil _ _), toSpaced [' '] (List.cons_ne_nil _ _)])) =
      some [(['a', ' ', 'b'], ['X']), (['a', ' ', 'b'], ['X'])] :=
  defaultPrivilegesRead [toSpaced ['b', 'o'] (List.cons_ne_nil _ _),
    toSpaced [' '] (List.cons_ne_nil _ _)] (List.cons_ne_nil _ _)
    (fun item member name same => by
      simp only [List.mem_cons, List.not_mem_nil, or_false] at member
      rcases member with rfl | rfl <;> exact Grantee.noConfusion same)
    (fun item member => by
      simp only [List.mem_cons, List.not_mem_nil, or_false] at member
      rcases member with rfl | rfl
      · exact .inr (by decide)
      · exact ⟨by decide, by decide⟩)

/- After a quoted grantee and a grantor of one letter, the loop runs behind the end of the text. -/
theorem readBehindEnd : ¬ ∃ calls : ℕ,
    (pairs (calls + 1) (stripped (aclText [toSpaced ['c'] (List.cons_ne_nil _ _)]))).isSome := by
  rintro ⟨calls, ends⟩
  exact absurd ends Bool.false_ne_true

end PgAdmin.DefaultPrivileges
