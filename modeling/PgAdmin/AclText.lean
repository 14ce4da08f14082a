import PgAdmin.PgsObjects
import PgAdmin.QueryTokenizer
import PgAdmin.WxString

/-! Access control lists as PostgreSQL prints them: the text of an item, with its names quoted
where they hold other letters than those of words, as an element of an array, which is quoted
once more. -/
namespace PgAdmin.AclText
open PgsObjects (Text)

inductive Grantee where
  | world
  | role (name : Text)
  | group (name : Text)
  deriving DecidableEq, Repr

def Grantee.name : Grantee → Text
  | world => []
  | role name => name
  | group name => name

def publicName : Text := "public".toList
def groupLabel : Text := "group ".toList

/- The server reserves public. -/
def Named (name : Text) : Prop := name ≠ [] ∧ name ≠ publicName

def rights : Text := ['r', 'w', 'a', 'D', 'c', 'd', 'R', 'x', 't', 'X', 'U', 'C', 'T']

structure Pattern where
  letters : Text
  known : ∀ c ∈ letters, c ∈ rights

/- With true the option to grant the privilege. The server keeps no item without a privilege. -/
structure AclItem (pattern : Pattern) where
  grantee : Grantee
  privileges : List (Char × Bool)
  grantor : Text
  named : grantee = .world ∨ Named grantee.name
  inside : ∀ privilege ∈ privileges, privilege.1 ∈ pattern.letters
  granted : privileges ≠ []
  signed : grantor ≠ []

def safe (c : Char) : Bool := c.isAlphanum || c == '_'

def quoteDoubled (c : Char) : Text := if c = '"' then ['"', '"'] else [c]

def putid (name : Text) : Text :=
  if name.all safe then name else '"' :: name.flatMap quoteDoubled ++ ['"']

def granteeText : Grantee → Text
  | .world => []
  | .role name => putid name
  | .group name => groupLabel ++ putid name

def privilegeText (privileges : List (Char × Bool)) : Text :=
  privileges.flatMap fun (c, option) => if option then [c, '*'] else [c]

variable {pattern : Pattern}

def aclitemout (item : AclItem pattern) : Text :=
  granteeText item.grantee ++ '=' :: privilegeText item.privileges ++ '/' :: putid item.grantor

def needsQuotes (s : Text) : Bool :=
  decide (s = []) || s.any (fun c => c ∈ ['"', '\\', '{', '}', ','] || wxString.isSpace c) ||
    decide (s.map Char.toUpper = "NULL".toList)

def escaped (c : Char) : Text := if c = '"' ∨ c = '\\' then ['\\', c] else [c]

def element (s : Text) : Text :=
  if needsQuotes s then '"' :: s.flatMap escaped ++ ['"'] else s

def elements (acl : List (AclItem pattern)) : List Text :=
  acl.map fun item => element (aclitemout item)

def aclText (acl : List (AclItem pattern)) : Text :=
  '{' :: [','].intercalate (elements acl) ++ ['}']

def mangled (name : Text) : Text :=
  if name.all safe then name else (name.flatMap quoteDoubled).flatMap escaped

def printed (name : Text) : Text :=
  if name.all safe then name else '\\' :: '"' :: mangled name ++ ['\\', '"']

theorem safeLetter {c : Char} (ok : safe c = true) :
    c ≠ '"' ∧ c ≠ '\\' ∧ c ≠ ',' ∧ c ≠ ' ' ∧ c ≠ '=' := by
  refine ⟨?_, ?_, ?_, ?_, ?_⟩ <;> rintro rfl <;> exact absurd ok (by decide)

theorem escapedSelf {s : Text} (free : ∀ c ∈ s, c ≠ '"' ∧ c ≠ '\\') : s.flatMap escaped = s := by
  induction s with
  | nil => rfl
  | cons c s ih =>
    have here := free c List.mem_cons_self
    rw [List.flatMap_cons, ih fun l member => free l (List.mem_cons_of_mem c member)]
    simp [escaped, here]

theorem escapedPutid (name : Text) : (putid name).flatMap escaped = printed name := by
  unfold putid printed mangled
  by_cases word : name.all safe = true
  · simp only [if_pos word]
    refine escapedSelf fun c member => ?_
    obtain ⟨quote, backslash, -⟩ := safeLetter (List.all_eq_true.mp word c member)
    exact ⟨quote, backslash⟩
  · simp [word, escaped]

theorem mangledSelf {name : Text} (clean : '"' ∉ name ∧ '\\' ∉ name) : mangled name = name := by
  unfold mangled
  split
  · rfl
  · have letters : ∀ c ∈ name, c ≠ '"' ∧ c ≠ '\\' := fun c member =>
      ⟨fun same => clean.1 (same ▸ member), fun same => clean.2 (same ▸ member)⟩
    have doubled : name.flatMap quoteDoubled = name := by
      calc name.flatMap quoteDoubled = name.flatMap (fun c => [c]) :=
            List.flatMap_congr fun c member => if_neg (letters c member).1
        _ = name := List.flatMap_singleton' name
    rw [doubled, escapedSelf letters]

theorem mangledCons (c : Char) (name : Text) :
    ((c :: name).flatMap quoteDoubled).flatMap escaped =
      (quoteDoubled c).flatMap escaped ++ (name.flatMap quoteDoubled).flatMap escaped := by
  rw [List.flatMap_cons, List.flatMap_append]

theorem mangledLetter (c : Char) : (quoteDoubled c).flatMap escaped =
    if c = '"' then ['\\', '"', '\\', '"'] else if c = '\\' then ['\\', '\\'] else [c] := by
  unfold quoteDoubled
  by_cases quote : c = '"'
  · simp [quote, escaped]
  · by_cases backslash : c = '\\' <;> simp [quote, backslash, escaped]

theorem mangledLonger {name : Text} (unclean : '"' ∈ name ∨ '\\' ∈ name) :
    '\\' ∈ mangled name ∧ name.length < (mangled name).length := by
  have word : ¬ name.all safe = true := by
    intro all
    rcases unclean with member | member
    · exact (safeLetter (List.all_eq_true.mp all _ member)).1 rfl
    · exact (safeLetter (List.all_eq_true.mp all _ member)).2.1 rfl
  have least : ∀ name : Text, name.length ≤ ((name.flatMap quoteDoubled).flatMap escaped).length := by
    intro name
    induction name with
    | nil => exact le_rfl
    | cons c name ih =>
      rw [mangledCons, mangledLetter, List.length_append]
      split
      · simp only [List.length_cons, List.length_nil]
        omega
      · split <;> simp only [List.length_cons, List.length_nil] <;> omega
  unfold mangled
  rw [if_neg word]
  clear word
  induction name with
  | nil => simp at unclean
  | cons c name ih =>
    have rest := least name
    rw [mangledCons, mangledLetter, List.mem_append, List.length_append]
    by_cases quote : c = '"'
    · simp only [if_pos quote, List.length_cons, List.length_nil]
      exact ⟨.inl (by simp), by omega⟩
    · by_cases backslash : c = '\\'
      · simp only [if_neg quote, if_pos backslash, List.length_cons, List.length_nil]
        exact ⟨.inl (by simp), by omega⟩
      · have inside : '"' ∈ name ∨ '\\' ∈ name := by
          simpa [Ne.symm quote, Ne.symm backslash] using unclean
        obtain ⟨member, longer⟩ := ih inside
        simp only [if_neg quote, if_neg backslash, List.length_cons, List.length_nil]
        exact ⟨.inr member, by omega⟩

theorem escapedLetters {s : Text} {c : Char} (member : c ∈ s.flatMap escaped) :
    c ∈ s ∨ c = '\\' := by
  obtain ⟨l, letter, inside⟩ := List.mem_flatMap.mp member
  unfold escaped at inside
  split at inside
  · rcases List.mem_cons.mp inside with rfl | same
    · exact .inr rfl
    · exact .inl (List.mem_singleton.mp same ▸ letter)
  · exact .inl (List.mem_singleton.mp inside ▸ letter)

theorem doubledLetters {s : Text} {c : Char} (member : c ∈ s.flatMap quoteDoubled) : c ∈ s := by
  obtain ⟨l, letter, inside⟩ := List.mem_flatMap.mp member
  unfold quoteDoubled at inside
  split at inside
  · rename_i quote
    have same : c = '"' := by simpa using inside
    exact same ▸ quote ▸ letter
  · exact List.mem_singleton.mp inside ▸ letter

theorem mangledLetters {name : Text} {c : Char} (member : c ∈ mangled name) :
    c ∈ name ∨ c = '\\' := by
  unfold mangled at member
  split at member
  · exact .inl member
  · exact (escapedLetters member).imp doubledLetters id

theorem printedLetters {name : Text} {c : Char} (member : c ∈ printed name) :
    c ∈ name ∨ c = '\\' ∨ c = '"' := by
  unfold printed at member
  split at member
  · exact .inl member
  · simp only [List.mem_append, List.mem_cons, List.not_mem_nil, or_false] at member
    rcases member with (escape | quote | inside) | escape | quote
    · exact .inr (.inl escape)
    · exact .inr (.inr quote)
    · exact (mangledLetters inside).imp id .inl
    · exact .inr (.inl escape)
    · exact .inr (.inr quote)

theorem printedFree {name : Text} {c : Char} (free : c ∉ name) (other : c ≠ '\\' ∧ c ≠ '"') :
    c ∉ printed name := fun member =>
  (printedLetters member).elim free fun either => either.elim other.1 other.2

theorem mangledInfix (name : Text) : mangled name <:+: printed name := by
  unfold printed
  split
  · rename_i word
    rw [mangled, if_pos word]
  · exact ⟨['\\', '"'], ['\\', '"'], rfl⟩

theorem privilegeLetter (item : AclItem pattern) {c : Char}
    (member : c ∈ privilegeText item.privileges) : c ∈ rights ∨ c = '*' := by
  obtain ⟨⟨l, option⟩, inside, letter⟩ := List.mem_flatMap.mp member
  have known := pattern.known l (item.inside _ inside)
  cases option with
  | true =>
    rcases List.mem_cons.mp letter with rfl | star
    · exact .inl known
    · exact .inr (List.mem_singleton.mp star)
  | false => exact .inl (List.mem_singleton.mp letter ▸ known)

theorem privilegeFree (item : AclItem pattern) {c : Char} (other : c ∉ '*' :: rights) :
    c ∉ privilegeText item.privileges := fun member =>
  other ((privilegeLetter item member).elim (List.mem_cons_of_mem _) fun star =>
    star ▸ List.mem_cons_self)

theorem putidComma {name : Text} (free : ',' ∉ name) : ',' ∉ putid name := by
  unfold putid
  split
  · exact free
  · intro member
    have inside : ',' ∈ name.flatMap quoteDoubled := by simpa using member
    exact free (doubledLetters inside)

theorem itemComma (item : AclItem pattern) (grantee : ',' ∉ item.grantee.name)
    (grantor : ',' ∉ item.grantor) : ',' ∉ aclitemout item := by
  have label : ',' ∉ groupLabel := by decide
  have first : ',' ∉ granteeText item.grantee := by
    cases found : item.grantee with
    | world => exact List.not_mem_nil
    | role name => exact putidComma (found ▸ grantee : ',' ∉ (Grantee.role name).name)
    | group name =>
      have rest := putidComma (found ▸ grantee : ',' ∉ (Grantee.group name).name)
      exact fun member => (List.mem_append.mp member).elim label rest
  have privileges : ',' ∉ privilegeText item.privileges := privilegeFree item (by decide)
  have last := putidComma grantor
  simp [aclitemout, first, privileges, last]

def granteePrinted : Grantee → Text
  | .world => []
  | .role name => printed name
  | .group name => groupLabel ++ printed name

theorem escapedItem (item : AclItem pattern) : (aclitemout item).flatMap escaped =
    granteePrinted item.grantee ++ '=' :: privilegeText item.privileges ++
      '/' :: printed item.grantor := by
  have privileges : (privilegeText item.privileges).flatMap escaped =
      privilegeText item.privileges := by
    refine escapedSelf fun c member => ⟨?_, ?_⟩ <;> rintro rfl
    · exact privilegeFree item (by decide) member
    · exact privilegeFree item (by decide) member
  have grantee : (granteeText item.grantee).flatMap escaped = granteePrinted item.grantee := by
    cases item.grantee with
    | world => rfl
    | role name => exact escapedPutid name
    | group name =>
      rw [granteeText, List.flatMap_append, escapedPutid]
      rfl
  simp [aclitemout, grantee, privileges, escapedPutid, escaped]

theorem unquotedElement {s : Text} (bare : needsQuotes s = false) :
    ∀ c ∈ s, c ≠ '"' ∧ c ≠ '\\' ∧ c ≠ ',' := by
  intro c member
  have letters : s.any (fun c => c ∈ ['"', '\\', '{', '}', ','] || wxString.isSpace c) = false := by
    simp only [needsQuotes, Bool.or_eq_false_iff] at bare
    exact bare.1.2
  have here := List.any_eq_false.mp letters c member
  refine ⟨?_, ?_, ?_⟩ <;> rintro rfl <;> exact here rfl

theorem elementComma {s : Text} : ',' ∈ element s ↔ ',' ∈ s := by
  unfold element
  split
  · have inside : ',' ∈ s.flatMap escaped ↔ ',' ∈ s := by
      refine ⟨fun member => (escapedLetters member).elim id (fun same => absurd same (by decide)),
        fun member => List.mem_flatMap.mpr ⟨',', member, by simp [escaped]⟩⟩
    simp [inside]
  · rfl

open queryTokenizer in
theorem mangledCloses (name : Text) :
    closes ',' false ((name.flatMap quoteDoubled).flatMap escaped) = some false := by
  induction name with
  | nil => rfl
  | cons c name ih =>
    rw [mangledCons, closesAppend, mangledLetter]
    by_cases quote : c = '"'
    · subst quote
      exact ih
    · by_cases backslash : c = '\\'
      · subst backslash
        exact ih
      · rw [if_neg quote, if_neg backslash]
        have step : closes ',' false [c] = some false := by simp [closes, quote]
        rw [step]
        exact ih

open queryTokenizer in
theorem printedCloses (name : Text) : closes ',' true (printed name) = some true := by
  unfold printed mangled
  by_cases word : name.all safe = true
  · rw [if_pos word]
    refine closesPlain fun c member => ?_
    obtain ⟨quote, -, comma, -⟩ := safeLetter (List.all_eq_true.mp word c member)
    exact ⟨comma, quote⟩
  · rw [if_neg word, if_neg word]
    show closes ',' true (['\\', '"'] ++ (name.flatMap quoteDoubled).flatMap escaped ++
      ['\\', '"']) = _
    rw [closesAppend, closesAppend]
    show (((some false).bind _).bind _) = _
    rw [Option.bind_some, mangledCloses]
    rfl

open queryTokenizer in
theorem elementCloses (item : AclItem pattern) :
    closes ',' false (element (aclitemout item)) = some false := by
  unfold element
  split
  · have grantee : closes ',' true (granteePrinted item.grantee) = some true := by
      cases item.grantee with
      | world => rfl
      | role name => exact printedCloses name
      | group name =>
        rw [granteePrinted, closesAppend]
        exact printedCloses name
    have privileges : closes ',' true (privilegeText item.privileges) = some true := by
      refine closesPlain fun c member => ⟨?_, ?_⟩ <;> rintro rfl
      · exact privilegeFree item (by decide) member
      · exact privilegeFree item (by decide) member
    rw [escapedItem]
    show closes ',' false (['"'] ++ (granteePrinted item.grantee ++ (['='] ++
      privilegeText item.privileges) ++ (['/'] ++ printed item.grantor)) ++ ['"']) = _
    have opening : closes ',' false ['"'] = some true := rfl
    have equals : closes ',' true ['='] = some true := rfl
    have slash : closes ',' true ['/'] = some true := rfl
    have closing : closes ',' true ['"'] = some false := rfl
    simp only [closesAppend, opening, Option.bind_some, grantee, equals, privileges, slash,
      printedCloses, closing]
  · rename_i bare
    refine closesPlain fun c member => ?_
    obtain ⟨quote, -, comma⟩ := unquotedElement (by simpa using bare) c member
    exact ⟨comma, quote⟩

end PgAdmin.AclText
