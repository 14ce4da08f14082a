import PgAdmin.GetGrant

/-! What the statements of GetPrivileges do: for no privileges they revoke all of them, and
otherwise they grant exactly those of the text. -/
namespace PgAdmin.pgObject
open PgsObjects (Text)
open AclText Privileges wxString

variable {keyword : Text → Bool} {pattern : Pattern} {acl object user column : Text}
  {who : Grantee} {option : Bool} {privileges : List (Char × Bool)}

theorem splitRightsText (inside : ∀ privilege ∈ privileges, privilege.1 ∈ pattern.letters) :
    splitRights pattern.letters (privilegeText privileges) =
      ((privileges.filter (·.2)).map Prod.fst, (privileges.filter (!·.2)).map Prod.fst) := by
  induction privileges with
  | nil => rfl
  | cons privilege privileges ih =>
    obtain ⟨c, option⟩ := privilege
    have rest := ih fun later member => inside later (List.mem_cons_of_mem _ member)
    have here : 0 ≤ Find pattern.letters [c] := (findLetter _ c).mpr (inside _ List.mem_cons_self)
    cases option with
    | true =>
      show splitRights pattern.letters (c :: '*' :: privilegeText privileges) = _
      simp [splitRights, rest, here]
    | false =>
      show splitRights pattern.letters (c :: privilegeText privileges) = _
      have next : ∀ s, privilegeText privileges ≠ '*' :: s := by
        intro s same
        cases privileges with
        | nil => exact nomatch same
        | cons later privileges =>
          obtain ⟨d, option⟩ := later
          have star : d = '*' := by
            cases option <;> simpa [privilegeText] using (List.cons.inj same).1
          have known : d ∈ rights := pattern.known _ (inside (d, option) (by simp))
          rw [star] at known
          exact absurd known (by decide)
      have step : splitRights pattern.letters (c :: privilegeText privileges) =
          ((splitRights pattern.letters (privilegeText privileges)).1,
            c :: (splitRights pattern.letters (privilegeText privileges)).2) := by
        rw [splitRights]
        · simp [here]
        · exact next
      rw [step, rest]
      rfl

theorem givesText (inside : ∀ privilege ∈ privileges, privilege.1 ∈ pattern.letters) (c : Char)
    (o : Bool) : Gives privileges c o ↔
      c ∈ (splitRights pattern.letters (privilegeText privileges)).1 ∨
        (o = false ∧ c ∈ (splitRights pattern.letters (privilegeText privileges)).2) := by
  rw [splitRightsText inside]
  simp only [Gives, List.mem_map, List.mem_filter]
  constructor
  · rintro ⟨w, member, bound⟩
    cases w with
    | true => exact .inl ⟨(c, true), ⟨member, rfl⟩, rfl⟩
    | false => exact .inr ⟨by simpa using bound, (c, false), ⟨member, rfl⟩, rfl⟩
  · rintro (⟨⟨l, w⟩, ⟨member, option⟩, rfl⟩ | ⟨rfl, ⟨l, w⟩, ⟨member, -⟩, rfl⟩)
    · exact ⟨w, member, fun _ => option⟩
    · exact ⟨w, member, nofun⟩

theorem appendRights (acl : Text) (names : List Text) (table : List (Char × Text)) :
    table.foldl (AppendRight acl) names =
      names ++ (table.filter (fun right => decide (right.1 ∈ acl))).map Prod.snd := by
  induction table generalizing names with
  | nil => simp
  | cons right table ih =>
    rw [List.foldl_cons, ih, AppendRight]
    by_cases here : right.1 ∈ acl
    · simp [(findLetter acl right.1).mpr here, here]
    · rw [if_neg (fun found => here ((findLetter acl right.1).mp found))]
      simp [here]

theorem lettersRead (names : List (Char × Text)) (table : ∀ right ∈ names, right ∈ rightNames) :
    (names.map Prod.snd).filterMap (privilegeLetters.lookup ·) = names.map Prod.fst := by
  have each : ∀ right ∈ rightNames, privilegeLetters.lookup right.2 = some right.1 := by decide
  induction names with
  | nil => rfl
  | cons right names ih =>
    rw [List.map_cons, List.filterMap_cons, each right (table right List.mem_cons_self)]
    simpa using ih fun later member => table later (List.mem_cons_of_mem right member)

theorem mem_grantedLetters (inside : ∀ c ∈ acl, c ∈ pattern.letters) (c : Char) :
    c ∈ grantedLetters pattern
      (GetPrivilegeGrant pattern.letters acl object user column option).rights ↔ c ∈ acl := by
  unfold GetPrivilegeGrant grantedLetters
  by_cases all : 1 < pattern.letters.length ∧ acl = pattern.letters
  · simp [all]
  · have noAll : ∀ right ∈ rightNames, right.2 ≠ "ALL".toList := by decide
    have names : rightNames.foldl (AppendRight acl) [] ≠ ["ALL".toList] := by
      rw [appendRights, List.nil_append]
      intro same
      have member : "ALL".toList ∈ (rightNames.filter (fun right => decide (right.1 ∈ acl))).map
          Prod.snd := same ▸ List.mem_singleton_self _
      obtain ⟨right, member, named⟩ := List.mem_map.mp member
      exact noAll right (List.mem_filter.mp member).1 named
    have known : c ∈ rightNames.map Prod.fst ↔ c ∈ rights := Iff.rfl
    rw [if_neg all, if_neg names, appendRights, List.nil_append,
      lettersRead _ (fun right member => (List.mem_filter.mp member).1), List.mem_map]
    constructor
    · rintro ⟨right, member, rfl⟩
      simpa using (List.mem_filter.mp member).2
    · intro member
      obtain ⟨right, table, rfl⟩ := List.mem_map.mp (known.mpr (pattern.known c (inside c member)))
      exact ⟨right, List.mem_filter.mpr ⟨table, by simpa using member⟩, rfl⟩

theorem rightsNone (inside : ∀ c ∈ acl, c ∈ pattern.letters) :
    (GetPrivilegeGrant pattern.letters acl object user column option).rights = [] ↔ acl = [] := by
  constructor
  · intro none
    refine List.eq_nil_iff_forall_not_mem.mpr fun c member => ?_
    have read : c ∈ grantedLetters pattern
        (GetPrivilegeGrant pattern.letters acl object user column option).rights :=
      (mem_grantedLetters inside c).mpr member
    rw [none] at read
    simp [grantedLetters] at read
  · rintro rfl
    have short : ¬ (1 < pattern.letters.length ∧ [] = pattern.letters) := by
      rintro ⟨long, same⟩
      rw [← same] at long
      exact absurd long (by decide)
    rw [GetPrivilegeGrant, if_neg short, appendRights]
    simp

theorem givesLetters (letters : Text) (option : Bool) (c : Char) (o : Bool) :
    Gives (letters.map (·, option)) c o ↔ c ∈ letters ∧ (o = true → option = true) := by
  constructor
  · rintro ⟨w, member, with'⟩
    obtain ⟨l, letter, same⟩ := List.mem_map.mp member
    cases same
    exact ⟨letter, with'⟩
  · rintro ⟨letter, with'⟩
    exact ⟨option, List.mem_map.mpr ⟨c, letter, rfl⟩, with'⟩

theorem grantCommand (read : readGrantee keyword user = some who)
    (inside : ∀ c ∈ acl, c ∈ pattern.letters) (nonempty : acl ≠ []) : ∃ rights,
    (GetPrivilegeGrant pattern.letters acl object user column option).command keyword pattern =
      some (.grant who rights) ∧
    ∀ c o, Gives rights c o ↔ c ∈ acl ∧ (o = true → option = true) := by
  have names : (GetPrivilegeGrant pattern.letters acl object user column option).rights ≠ [] :=
    (rightsNone inside).not.mpr nonempty
  refine ⟨(grantedLetters pattern (GetPrivilegeGrant pattern.letters acl object user column
    option).rights).map (·, option), ?_, fun c o => ?_⟩
  · show (readGrantee keyword user).map _ = _
    rw [read, Option.map_some, if_neg names]
    rfl
  · rw [givesLetters, mem_grantedLetters inside]

theorem revokeCommands (read : readGrantee keyword user = some who) :
    (GetPrivileges pattern.letters [] object user column).filterMap
      (Statement.command keyword pattern) = [.revoke who] := by
  have names : (GetPrivilegeGrant pattern.letters [] object user column false).rights = [] :=
    (rightsNone (by simp)).mpr rfl
  have command : (GetPrivilegeGrant pattern.letters [] object user column false).command keyword
      pattern = some (.revoke who) := by
    show (readGrantee keyword user).map _ = _
    rw [read, Option.map_some, if_pos names]
  simp [GetPrivileges, splitRights, command]

theorem statementUser {allPattern str : Text} {s : Statement}
    (member : s ∈ GetPrivileges allPattern str object user column) : s.user = user := by
  simp only [GetPrivileges, List.mem_append] at member
  rcases member with member | member <;> split at member <;> simp at member <;>
    rw [member] <;> rfl

theorem commandWho {s : Statement} {command : Command Grantee Char}
    (read : s.command keyword pattern = some command) :
    readGrantee keyword s.user = some command.who := by
  obtain ⟨who, found, rfl⟩ := Option.map_eq_some_iff.mp read
  rw [found]
  split <;> rfl

theorem commandsWho {str : Text} {command : Command Grantee Char}
    (member : command ∈ (GetPrivileges pattern.letters str object user column).filterMap
      (Statement.command keyword pattern)) : readGrantee keyword user = some command.who := by
  obtain ⟨s, member, read⟩ := List.mem_filterMap.mp member
  exact statementUser member ▸ commandWho read

theorem partCommands (read : readGrantee keyword user = some who)
    (inside : ∀ c ∈ acl, c ∈ pattern.letters) :
    (∀ command ∈ (if acl ≠ [] then [GetPrivilegeGrant pattern.letters acl object user column option]
        else []).filterMap (Statement.command keyword pattern), ∀ g, ¬ command.Revokes g) ∧
      ∀ g c o, (∃ command ∈ (if acl ≠ [] then
          [GetPrivilegeGrant pattern.letters acl object user column option] else []).filterMap
            (Statement.command keyword pattern), command.Grants (g, c, o)) ↔
        g = who ∧ c ∈ acl ∧ (o = true → option = true) := by
  by_cases nonempty : acl = []
  · simp [nonempty]
  · obtain ⟨rights, command, gives⟩ := @grantCommand keyword pattern acl object user column
      who option read inside nonempty
    rw [if_pos nonempty, List.filterMap_cons, command, List.filterMap_nil]
    simp [Command.Revokes, Command.Grants, gives]

/-- For an item the statements revoke nothing, and grant its privileges. -/
theorem grantCommands (read : readGrantee keyword user = some who)
    (inside : ∀ privilege ∈ privileges, privilege.1 ∈ pattern.letters)
    (nonempty : privileges ≠ []) :
    (∀ command ∈ (GetPrivileges pattern.letters (privilegeText privileges) object user
        column).filterMap (Statement.command keyword pattern), ∀ g, ¬ command.Revokes g) ∧
      ∀ g c o, (∃ command ∈ (GetPrivileges pattern.letters (privilegeText privileges) object user
          column).filterMap (Statement.command keyword pattern), command.Grants (g, c, o)) ↔
        g = who ∧ Gives privileges c o := by
  have part : ∀ kept : Char × Bool → Bool,
      ∀ c ∈ (privileges.filter kept).map Prod.fst, c ∈ pattern.letters := by
    intro kept c member
    obtain ⟨privilege, member, same⟩ := List.mem_map.mp member
    exact same ▸ inside privilege (List.mem_filter.mp member).1
  have some : (privileges.filter (!·.2)).map Prod.fst ≠ [] ∨
      (privileges.filter (·.2)).map Prod.fst = [] ↔
      (privileges.filter (!·.2)).map Prod.fst ≠ [] := by
    refine ⟨?_, Or.inl⟩
    rintro (without | none)
    · exact without
    · obtain ⟨privilege, member⟩ := List.exists_mem_of_ne_nil _ nonempty
      have option : privilege.2 = false := by
        have left := List.filter_eq_nil_iff.mp (List.map_eq_nil_iff.mp none) privilege member
        simpa using left
      have kept : privilege.1 ∈ (privileges.filter (!·.2)).map Prod.fst :=
        List.mem_map_of_mem (List.mem_filter.mpr ⟨member, by simp [option]⟩)
      exact List.ne_nil_of_mem kept
  have without := @partCommands _ _ _ object _ column _ false read (part (!·.2))
  have with' := @partCommands _ _ _ object _ column _ true read (part (·.2))
  rw [GetPrivileges, splitRightsText inside]
  simp only [if_congr some rfl rfl, List.filterMap_append, List.mem_append]
  constructor
  · rintro command (member | member)
    · exact without.1 command member
    · exact with'.1 command member
  · intro g c o
    simp only [or_and_right, exists_or, without.2, with'.2, ← and_or_left]
    refine and_congr_right fun _ => ?_
    simp only [Gives, List.mem_map, List.mem_filter]
    constructor
    · rintro (⟨⟨⟨l, w⟩, ⟨member, plain⟩, rfl⟩, bound⟩ | ⟨⟨⟨l, w⟩, ⟨member, option⟩, rfl⟩, bound⟩)
      · exact ⟨w, member, fun asked => absurd (bound asked) (by decide)⟩
      · exact ⟨w, member, fun _ => option⟩
    · rintro ⟨w, member, bound⟩
      cases w with
      | false => exact .inl ⟨⟨(c, false), ⟨member, rfl⟩, rfl⟩, bound⟩
      | true => exact .inr ⟨⟨(c, true), ⟨member, rfl⟩, rfl⟩, fun _ => trivial⟩

end PgAdmin.pgObject
