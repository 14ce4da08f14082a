import PgAdmin.GrantReading

/-! The statements of GetGrant, run on an object that has just been created. They restore the
privileges of its access control list when the names of the grantees have none of the letters
that the list quotes or ends them with, the owner is told from the grantees by name, and neither
the owner nor the public keeps a privilege that the list leaves out. -/
namespace PgAdmin.pgObject
open PgsObjects (Text)
open AclText Privileges wxString

variable {keyword : Text → Bool} {pattern : Pattern} {acl : List (AclItem pattern)} {obj : Object}
  {defaults grantFor column : Text}

def created (pattern : Pattern) (owner defaults : Text) : Holdings Grantee Char :=
  {t | ((t.1 = .role owner ∧ t.2.1 ∈ pattern.letters) ∨ (t.1 = .world ∧ t.2.1 ∈ defaults)) ∧
    t.2.2 = false}

def described (acl : List (AclItem pattern)) : Holdings Grantee Char :=
  {t | ∃ item ∈ acl, t.1 = item.grantee ∧ Gives item.privileges t.2.1 t.2.2}

def restored (keyword : Text → Bool) (acl : List (AclItem pattern)) (obj : Object)
    (defaults grantFor column : Text) : Holdings Grantee Char :=
  replay keyword pattern (created pattern obj.owner defaults)
    (GetGrant keyword { obj with acl := aclText acl } pattern.letters grantFor column)

def aclTokens (acl : List (AclItem pattern)) : List Text :=
  ([','].intercalate (elements acl)).splitOn ','

def OwnerSeen (keyword : Text → Bool) (acl : List (AclItem pattern)) (owner : Text) : Prop :=
  ∃ token ∈ aclTokens acl, ∃ tmpUser ∈ (entry keyword token).tmpUser, owner <:+: tmpUser

def PublicSeen (keyword : Text → Bool) (acl : List (AclItem pattern)) : Prop :=
  ∃ token ∈ aclTokens acl, (entry keyword token).tmpUser = none

def revokesPublic (metaType : MetaType) : Prop :=
  metaType = .PGM_LANGUAGE ∨ metaType = .PGM_FUNCTION ∨ metaType = .PGM_DATABASE

instance (metaType : MetaType) : Decidable (revokesPublic metaType) :=
  inferInstanceAs (Decidable (_ ∨ _))

theorem grantTokens (allPattern grantFor column : Text) (g : Granting) (tokens : List Text) :
    tokens.foldl (grantToken keyword obj allPattern grantFor column) g =
      ⟨g.grant ++ tokens.flatMap fun token => GetPrivileges allPattern (entry keyword token).str
          grantFor (entry keyword token).user column,
        g.grantedToPublic || tokens.any fun token => (entry keyword token).tmpUser.isNone,
        g.grantedToOwner || tokens.any fun token => (entry keyword token).tmpUser.any
          fun tmpUser => decide (0 ≤ Find tmpUser obj.owner)⟩ := by
  induction tokens generalizing g with
  | nil => simp
  | cons token tokens ih =>
    rw [List.foldl_cons, ih]
    simp [grantToken, Bool.or_assoc]

theorem ownerSeenAny : ((aclTokens acl).any fun token => (entry keyword token).tmpUser.any
      fun tmpUser => decide (0 ≤ Find tmpUser obj.owner)) = true ↔
    OwnerSeen keyword acl obj.owner := by
  simp only [List.any_eq_true, Option.any_eq_true, decide_eq_true_eq, findSome]
  rfl

theorem publicSeenAny : ((aclTokens acl).any fun token => (entry keyword token).tmpUser.isNone) =
      true ↔ PublicSeen keyword acl := by
  simp only [List.any_eq_true, Option.isNone_iff_eq_none]
  rfl

theorem aclTextItems (nonempty : acl ≠ []) : aclText acl ≠ [] ∧ aclText acl ≠ ['{', '}'] := by
  have filled := joinedNonempty nonempty
  refine ⟨List.cons_ne_nil _ _, fun same => filled ?_⟩
  have inner : [','].intercalate (elements acl) ++ ['}'] = ['}'] := (List.cons.inj same).2
  exact List.append_left_eq_self.mp inner

/-- The commands are those of the items, and then the revokes for the public and the owner. -/
theorem restoredRun (nonempty : acl ≠ [])
    (keyword : Text → Bool) (defaults grantFor column : Text) :
    ∃ object column' : Text, ∃ pubs owns : List (Command Grantee Char),
      restored keyword acl obj defaults grantFor column =
        run (created pattern obj.owner defaults) (((aclTokens acl).flatMap fun token =>
          (GetPrivileges pattern.letters (entry keyword token).str object
            (entry keyword token).user column').filterMap (Statement.command keyword pattern)) ++
          pubs ++ owns) ∧
      ((pubs = [.revoke .world] ∧ ¬ PublicSeen keyword acl ∧ revokesPublic obj.metaType) ∨
        (pubs = [] ∧ (PublicSeen keyword acl ∨ ¬ revokesPublic obj.metaType))) ∧
      ((owns = [.revoke (.role obj.owner)] ∧ ¬ OwnerSeen keyword acl obj.owner) ∨
        (owns = [] ∧ OwnerSeen keyword acl obj.owner)) := by
  obtain ⟨text, braces⟩ := aclTextItems nonempty
  have world : readGrantee keyword publicName = some .world := if_pos rfl
  unfold restored replay GetGrant
  simp only [if_neg text, if_neg braces, tokensElements acl nonempty]
  rw [← aclTokens, grantTokens]
  have unseenPublic : (false || (aclTokens acl).any fun token =>
      (entry keyword token).tmpUser.isNone) = false ↔ ¬ PublicSeen keyword acl := by
    rw [Bool.false_or, Bool.eq_false_iff, ne_eq, publicSeenAny]
  have unseenOwner : (false || (aclTokens acl).any fun token => (entry keyword token).tmpUser.any
      fun tmpUser => decide (0 ≤ Find tmpUser obj.owner)) = false ↔
      ¬ OwnerSeen keyword acl obj.owner := by
    rw [Bool.false_or, Bool.eq_false_iff, ne_eq, ownerSeenAny]
  simp only [List.nil_append, List.filterMap_append, List.filterMap_flatMap]
  refine ⟨_, _, _, _, rfl, ?_, ?_⟩
  · split
    · rename_i revoked
      exact .inl ⟨revokeCommands world, unseenPublic.mp revoked.1, revoked.2⟩
    · rename_i kept
      rw [unseenPublic, not_and_or, not_not] at kept
      exact .inr ⟨rfl, kept⟩
  · split
    · rename_i revoked
      exact .inl ⟨revokeCommands (readRole obj.ownerNamed), unseenOwner.mp revoked⟩
    · rename_i kept
      rw [unseenOwner, not_not] at kept
      exact .inr ⟨rfl, kept⟩

theorem restoredHeld (nonempty : acl ≠ []) {t : Grantee × Char × Bool}
    (last : t ∈ restored keyword acl obj defaults grantFor column) :
    t ∈ created pattern obj.owner defaults ∨
      ∃ token ∈ aclTokens acl, readGrantee keyword (entry keyword token).user = some t.1 := by
  obtain ⟨object, column', pubs, owns, whole, public', owner⟩ :=
    restoredRun nonempty keyword defaults grantFor column
  rw [whole] at last
  rcases runHeld last with first | ⟨command, member, grants⟩
  · exact .inl first
  · have inside : command ∉ pubs ∧ command ∉ owns := by
      constructor
      · intro member
        rcases public' with ⟨rfl, -⟩ | ⟨rfl, -⟩
        · exact (List.mem_singleton.mp member ▸ grants :
            (Command.revoke (ρ := Char) Grantee.world).Grants t)
        · exact nomatch member
      · intro member
        rcases owner with ⟨rfl, -⟩ | ⟨rfl, -⟩
        · exact (List.mem_singleton.mp member ▸ grants :
            (Command.revoke (ρ := Char) (Grantee.role obj.owner)).Grants t)
        · exact nomatch member
    have first := ((List.mem_append.mp member).resolve_right inside.2)
    obtain ⟨token, here, commands⟩ := List.mem_flatMap.mp
      ((List.mem_append.mp first).resolve_right inside.1)
    exact .inr ⟨token, here, (commandsWho commands).trans (by rw [Command.grantsWho grants])⟩

theorem ownerRevoked (nonempty : acl ≠ [])
    (unseen : ¬ OwnerSeen keyword acl obj.owner) (x : Char × Bool) :
    (.role obj.owner, x) ∉ restored keyword acl obj defaults grantFor column := by
  obtain ⟨object, column', pubs, owns, whole, -, owner⟩ :=
    restoredRun nonempty keyword defaults grantFor column
  obtain ⟨rfl, -⟩ := owner.resolve_right fun seen => unseen seen.2
  rw [whole, runAppend]
  exact runRevoked (t := (.role obj.owner, x)) (fun command none => nomatch none)

theorem publicRevoked (nonempty : acl ≠ [])
    (unseen : ¬ PublicSeen keyword acl) (revokes : revokesPublic obj.metaType) (x : Char × Bool) :
    (.world, x) ∉ restored keyword acl obj defaults grantFor column := by
  obtain ⟨object, column', pubs, owns, whole, public', owner⟩ :=
    restoredRun nonempty keyword defaults grantFor column
  obtain ⟨rfl, -⟩ := public'.resolve_right fun seen => seen.2.elim unseen fun not => not revokes
  rw [whole, List.append_assoc, runAppend]
  refine runRevoked (t := (.world, x)) fun command member grants => ?_
  rcases owner with ⟨rfl, -⟩ | ⟨rfl, -⟩
  · exact (List.mem_singleton.mp member ▸ grants :
      (Command.revoke (ρ := Char) (Grantee.role obj.owner)).Grants (.world, x))
  · exact nomatch member

def Whole (acl : List (AclItem pattern)) : Prop :=
  ∀ item ∈ acl, ',' ∉ item.grantee.name ∧ '=' ∉ item.grantee.name ∧ ',' ∉ item.grantor

theorem tokensWhole (nonempty : acl ≠ []) (free : Whole acl) : aclTokens acl = elements acl :=
  tokensItems acl nonempty fun item member => ⟨(free item member).1, (free item member).2.2⟩

theorem ownerSeenWhole (nonempty : acl ≠ []) (free : Whole acl) :
    OwnerSeen keyword acl obj.owner ↔
      ∃ item ∈ acl, ∃ name ∈ granteeCompared item.grantee, obj.owner <:+: name := by
  have read : ∀ item ∈ acl, (entry keyword (element (aclitemout item))).tmpUser =
      granteeCompared item.grantee := fun item member => by
    rw [entryItem item (free item member).2.1]
  rw [OwnerSeen, tokensWhole nonempty free]
  constructor
  · rintro ⟨token, member, name, compared, inside⟩
    obtain ⟨item, listed, rfl⟩ := List.mem_map.mp member
    exact ⟨item, listed, name, read item listed ▸ compared, inside⟩
  · rintro ⟨item, listed, name, compared, inside⟩
    exact ⟨_, List.mem_map_of_mem listed, name, (read item listed).symm ▸ compared, inside⟩

theorem publicSeenWhole (nonempty : acl ≠ []) (free : Whole acl) :
    PublicSeen keyword acl ↔ ∃ item ∈ acl, item.grantee = .world := by
  have read : ∀ item ∈ acl, (entry keyword (element (aclitemout item))).tmpUser = none ↔
      item.grantee = .world := fun item member => by
    rw [entryItem item (free item member).2.1]
    cases item.grantee <;> simp [granteeCompared]
  rw [PublicSeen, tokensWhole nonempty free]
  constructor
  · rintro ⟨token, member, none⟩
    obtain ⟨item, listed, rfl⟩ := List.mem_map.mp member
    exact ⟨item, listed, (read item listed).mp none⟩
  · rintro ⟨item, listed, world⟩
    exact ⟨_, List.mem_map_of_mem listed, (read item listed).mpr world⟩

/-- Where nothing is revoked the items are granted to the roles that they are read for. -/
theorem restoredReads (nonempty : acl ≠ []) (free : Whole acl) {t : Grantee × Char × Bool}
    (public' : t.1 = .world → PublicSeen keyword acl ∨ ¬ revokesPublic obj.metaType)
    (owner : t.1 = .role obj.owner → OwnerSeen keyword acl obj.owner) :
    t ∈ restored keyword acl obj defaults grantFor column ↔
      t ∈ created pattern obj.owner defaults ∨
        ∃ item ∈ acl, t.1 = readAs item.grantee ∧ Gives item.privileges t.2.1 t.2.2 := by
  obtain ⟨object, column', pubs, owns, whole, pubs', owns'⟩ :=
    restoredRun nonempty keyword defaults grantFor column
  have items : ∀ item ∈ acl,
      (∀ command ∈ (GetPrivileges pattern.letters
          (entry keyword (element (aclitemout item))).str object
          (entry keyword (element (aclitemout item))).user column').filterMap
            (Statement.command keyword pattern), ∀ g, ¬ command.Revokes g) ∧
      ((∃ command ∈ (GetPrivileges pattern.letters
          (entry keyword (element (aclitemout item))).str object
          (entry keyword (element (aclitemout item))).user column').filterMap
            (Statement.command keyword pattern), command.Grants t) ↔
        t.1 = readAs item.grantee ∧ Gives item.privileges t.2.1 t.2.2) := by
    intro item member
    rw [entryItem item (free item member).2.1]
    have commands := @grantCommands keyword _ object _ column' _ _
      (readUser item.named) item.inside item.granted
    exact ⟨commands.1, commands.2 t.1 t.2.1 t.2.2⟩
  have pubsNone : ∀ command ∈ pubs, ¬ command.Revokes t.1 ∧ ¬ command.Grants t := by
    intro command member
    rcases pubs' with ⟨rfl, unseen, revokes⟩ | ⟨rfl, -⟩
    · rw [List.mem_singleton.mp member]
      exact ⟨fun world => (public' world).elim unseen fun not => not revokes, id⟩
    · exact nomatch member
  have ownsNone : ∀ command ∈ owns, ¬ command.Revokes t.1 ∧ ¬ command.Grants t := by
    intro command member
    rcases owns' with ⟨rfl, unseen⟩ | ⟨rfl, -⟩
    · rw [List.mem_singleton.mp member]
      exact ⟨fun same => unseen (owner same), id⟩
    · exact nomatch member
  rw [whole, tokensWhole nonempty free, runUnrevoked]
  · refine or_congr_right ⟨?_, ?_⟩
    · rintro ⟨command, member, grants⟩
      simp only [List.mem_append] at member
      rcases member with (member | member) | member
      · obtain ⟨token, listed, here⟩ := List.mem_flatMap.mp member
        obtain ⟨item, inside, rfl⟩ := List.mem_map.mp listed
        exact ⟨item, inside, (items item inside).2.mp ⟨command, here, grants⟩⟩
      · exact absurd grants (pubsNone command member).2
      · exact absurd grants (ownsNone command member).2
    · rintro ⟨item, listed, gives⟩
      obtain ⟨command, here, grants⟩ := (items item listed).2.mpr gives
      have token : element (aclitemout item) ∈ elements acl := List.mem_map_of_mem listed
      refine ⟨command, List.mem_append_left _ (List.mem_append_left _ ?_), grants⟩
      exact List.mem_flatMap.mpr ⟨_, token, here⟩
  · intro command member
    simp only [List.mem_append] at member
    rcases member with (member | member) | member
    · obtain ⟨token, listed, here⟩ := List.mem_flatMap.mp member
      obtain ⟨item, inside, rfl⟩ := List.mem_map.mp listed
      exact (items item inside).1 command here t.1
    · exact (pubsNone command member).1
    · exact (ownsNone command member).1

theorem restoredNone : restored keyword ([] : List (AclItem pattern)) obj defaults grantFor column =
    described ([] : List (AclItem pattern)) := by
  have world : readGrantee keyword publicName = some .world := if_pos rfl
  have run' : restored keyword ([] : List (AclItem pattern)) obj defaults grantFor column =
      run (created pattern obj.owner defaults) [.revoke .world, .revoke (.role obj.owner)] := by
    unfold restored replay GetGrant
    have text : aclText ([] : List (AclItem pattern)) = ['{', '}'] := rfl
    simp only [text]
    rw [if_neg (List.cons_ne_nil _ _), if_pos trivial, List.filterMap_append, revokeCommands world,
      revokeCommands (readRole obj.ownerNamed)]
    rfl
  rw [run']
  refine Set.eq_of_subset_of_subset (fun t last => ?_) (fun t ⟨item, member, _⟩ => nomatch member)
  rcases last with ⟨⟨first, notWorld⟩ | none, notOwner⟩ | none
  · rcases first.1 with ⟨owner, -⟩ | ⟨world, -⟩
    · exact absurd owner notOwner
    · exact absurd world notWorld
  · exact none.elim
  · exact none.elim

theorem restoredLetters (nonempty : acl ≠ []) {c : Char} (ends : c = '=' ∨ c = ',')
    (same : restored keyword acl obj defaults grantFor column = described acl) :
    ∀ item ∈ acl, c ∉ item.grantee.name := by
  intro item member inside
  have letters : ∀ token ∈ aclTokens acl, c = '=' ∨ c ∉ token := fun token cut =>
    ends.imp id fun comma => by
      rw [comma]
      exact (Tokenizer.pieceLetters cut).1
  obtain ⟨privilege, first⟩ := List.exists_mem_of_ne_nil _ item.granted
  have held : (item.grantee, privilege) ∈ restored keyword acl obj defaults grantFor column :=
    same ▸ ⟨item, member, rfl, privilege.2, first, id⟩
  rcases restoredHeld nonempty held with ⟨⟨owner, -⟩ | ⟨world, -⟩, -⟩ | ⟨token, cut, read⟩
  · have owned : item.grantee = .role obj.owner := owner
    have inOwner : c ∈ obj.owner := by
      rw [owned] at inside
      exact inside
    have unseen : ¬ OwnerSeen keyword acl obj.owner := by
      rintro ⟨token, cut, tmpUser, compared, contains⟩
      exact (entryLetters token (letters token cut)).2 tmpUser compared (contains.subset inOwner)
    exact ownerRevoked nonempty unseen privilege (owned ▸ held)
  · have public' : item.grantee = .world := world
    rw [public'] at inside
    exact nomatch inside
  · exact (entryLetters token (letters token cut)).1 _ read inside

theorem restoredUnclean (nonempty : acl ≠ []) (free : Whole acl)
    (same : restored keyword acl obj defaults grantFor column = described acl) {item : AclItem pattern}
    (member : item ∈ acl) (unclean : '"' ∈ item.grantee.name ∨ '\\' ∈ item.grantee.name) :
    ∃ longer ∈ acl, longer.grantee.name = mangled item.grantee.name := by
  obtain ⟨privilege, first⟩ := List.exists_mem_of_ne_nil _ item.granted
  have gives : Gives item.privileges privilege.1 privilege.2 := ⟨privilege.2, first, id⟩
  have name : (readAs item.grantee).name = mangled item.grantee.name := by
    cases item.grantee <;> rfl
  have notWorld : readAs item.grantee ≠ .world := by
    cases found : item.grantee with
    | world => simp [found, Grantee.name] at unclean
    | role n => exact fun same => Grantee.noConfusion same
    | group n => exact fun same => Grantee.noConfusion same
  have seen : readAs item.grantee = .role obj.owner → OwnerSeen keyword acl obj.owner := by
    intro owner
    refine (ownerSeenWhole nonempty free).mpr ⟨item, member, printed item.grantee.name, ?_, ?_⟩
    · cases found : item.grantee with
      | world => simp [found, Grantee.name] at unclean
      | role n => rfl
      | group n => rfl
    · have whole : obj.owner = mangled item.grantee.name := by
        rw [← name, owner]
        rfl
      exact whole ▸ mangledInfix item.grantee.name
  have held : (readAs item.grantee, privilege) ∈ restored keyword acl obj defaults grantFor column :=
    (restoredReads nonempty free (fun world => absurd world notWorld) seen).mpr
      (.inr ⟨item, member, rfl, gives⟩)
  rw [same] at held
  obtain ⟨longer, listed, grantee, -⟩ := held
  exact ⟨longer, listed, by rw [← name]; exact congrArg Grantee.name grantee.symm⟩

theorem restoredClean (nonempty : acl ≠ []) (free : Whole acl)
    (same : restored keyword acl obj defaults grantFor column = described acl) :
    ∀ item ∈ acl, '"' ∉ item.grantee.name ∧ '\\' ∉ item.grantee.name := by
  by_contra unclean
  push Not at unclean
  obtain ⟨first, member, unclean⟩ := unclean
  have start : '"' ∈ first.grantee.name ∨ '\\' ∈ first.grantee.name := by tauto
  have long : ∀ n : ℕ, ∃ item ∈ acl, n ≤ item.grantee.name.length ∧
      ('"' ∈ item.grantee.name ∨ '\\' ∈ item.grantee.name) := by
    intro n
    induction n with
    | zero => exact ⟨first, member, Nat.zero_le _, start⟩
    | succ n ih =>
      obtain ⟨item, listed, least, unclean⟩ := ih
      obtain ⟨longer, there, name⟩ := restoredUnclean nonempty free same listed unclean
      obtain ⟨escape, more⟩ := mangledLonger unclean
      rw [← name] at escape more
      exact ⟨longer, there, by omega, .inr escape⟩
  obtain ⟨item, listed, least, -⟩ := long ((acl.map (·.grantee.name.length)).sum + 1)
  have bound := List.le_sum_of_mem (List.mem_map_of_mem (f := (·.grantee.name.length)) listed)
  omega

/- The letters that the list quotes names for and ends them with. -/
def Legible (acl : List (AclItem pattern)) : Prop :=
  ∀ item ∈ acl, ∀ c ∈ item.grantee.name, c ∉ ['"', '\\', '=', ',']

/- The owner has all privileges in the list, or no name in it holds the owner's. -/
def OwnerListed (acl : List (AclItem pattern)) (owner : Text) : Prop :=
  (∀ c ∈ pattern.letters, (Grantee.role owner, c, false) ∈ described acl) ∨
    ∀ item ∈ acl, ∀ name ∈ granteeCompared item.grantee, ¬ owner <:+: name

/- The public has its defaults in the list, or is not in it and is revoked from. -/
def PublicListed (acl : List (AclItem pattern)) (metaType : MetaType) (defaults : Text) : Prop :=
  (∀ c ∈ defaults, (Grantee.world, c, false) ∈ described acl) ∨ acl = [] ∨
    (revokesPublic metaType ∧ ∀ item ∈ acl, item.grantee ≠ .world)

theorem legibleIff : Legible acl ↔ ∀ item ∈ acl, ('"' ∉ item.grantee.name ∧
    '\\' ∉ item.grantee.name) ∧ '=' ∉ item.grantee.name ∧ ',' ∉ item.grantee.name := by
  refine forall₂_congr fun item _ => ⟨fun clean => ?_, fun clean c member => ?_⟩
  · exact ⟨⟨fun member => clean _ member (by decide), fun member => clean _ member (by decide)⟩,
      fun member => clean _ member (by decide), fun member => clean _ member (by decide)⟩
  · simp only [List.mem_cons, List.not_mem_nil, or_false, not_or]
    exact ⟨fun quote => clean.1.1 (quote ▸ member), fun escape => clean.1.2 (escape ▸ member),
      fun equals => clean.2.1 (equals ▸ member), fun comma => clean.2.2 (comma ▸ member)⟩

theorem readAsSelf {item : AclItem pattern} (clean : '"' ∉ item.grantee.name ∧
    '\\' ∉ item.grantee.name) : readAs item.grantee = item.grantee := by
  cases found : item.grantee with
  | world => rfl
  | role name => exact congrArg Grantee.role (mangledSelf (by rwa [found] at clean))
  | group name => exact congrArg Grantee.group (mangledSelf (by rwa [found] at clean))

/-- With no comma in the name of a grantor, the statements restore the privileges of the list
exactly when its names are legible, and it says of the owner and the public what holds anyway or
is seen to be missing. -/
theorem privilegesRestored (keyword : Text → Bool) (acl : List (AclItem pattern)) (obj : Object)
    (defaults grantFor column : Text) (grantors : ∀ item ∈ acl, ',' ∉ item.grantor) :
    restored keyword acl obj defaults grantFor column = described acl ↔
      Legible acl ∧ OwnerListed acl obj.owner ∧ PublicListed acl obj.metaType defaults := by
  by_cases nonempty : acl = []
  · subst nonempty
    exact iff_of_true restoredNone ⟨nofun, .inr nofun, .inr (.inl rfl)⟩
  constructor
  · intro same
    have equals := restoredLetters nonempty (.inl rfl) same
    have commas := restoredLetters nonempty (.inr rfl) same
    have free : Whole acl := fun item member =>
      ⟨commas item member, equals item member, grantors item member⟩
    have clean := restoredClean nonempty free same
    refine ⟨legibleIff.mpr fun item member =>
      ⟨clean item member, equals item member, commas item member⟩, ?_, ?_⟩
    · by_contra unlisted
      obtain ⟨missing, seen⟩ := not_or.mp unlisted
      push Not at missing seen
      obtain ⟨c, letter, missing⟩ := missing
      refine missing (same ▸ (restoredReads nonempty free (fun world => Grantee.noConfusion world)
        fun _ => (ownerSeenWhole nonempty free).mpr seen).mpr (.inl ⟨.inl ⟨rfl, letter⟩, rfl⟩))
    · by_contra unlisted
      obtain ⟨missing, kept⟩ := not_or.mp unlisted
      push Not at missing
      obtain ⟨c, letter, missing⟩ := missing
      have seen : PublicSeen keyword acl ∨ ¬ revokesPublic obj.metaType := by
        rw [publicSeenWhole nonempty free]
        by_contra both
        push Not at both
        exact kept (.inr ⟨both.2, both.1⟩)
      exact missing (same ▸ (restoredReads nonempty free (fun _ => seen)
        fun owner => Grantee.noConfusion owner).mpr (.inl ⟨.inr ⟨rfl, letter⟩, rfl⟩))
  · rintro ⟨legible, owner, public'⟩
    have clean := legibleIff.mp legible
    have free : Whole acl := fun item member =>
      ⟨(clean item member).2.2, (clean item member).2.1, grantors item member⟩
    refine Set.ext fun ⟨g, c, option⟩ => ?_
    by_cases ownerless : g = .role obj.owner ∧ ¬ OwnerSeen keyword acl obj.owner
    · obtain ⟨rfl, unseen⟩ := ownerless
      refine iff_of_false (ownerRevoked nonempty unseen _) ?_
      rintro ⟨item, member, grantee, -⟩
      have named : Grantee.role obj.owner = item.grantee := grantee
      refine unseen ((ownerSeenWhole nonempty free).mpr
        ⟨item, member, printed obj.owner, named ▸ rfl, ?_⟩)
      have same := mangledSelf (clean item member).1
      rw [← named] at same
      have inside := mangledInfix obj.owner
      rwa [show mangled obj.owner = obj.owner from same] at inside
    · by_cases publicless : g = .world ∧ ¬ PublicSeen keyword acl ∧ revokesPublic obj.metaType
      · obtain ⟨rfl, unseen, revokes⟩ := publicless
        refine iff_of_false (publicRevoked nonempty unseen revokes _) ?_
        rintro ⟨item, member, grantee, -⟩
        exact unseen ((publicSeenWhole nonempty free).mpr ⟨item, member, grantee.symm⟩)
      · have seenOwner : g = .role obj.owner → OwnerSeen keyword acl obj.owner := by tauto
        have seenPublic : g = .world → PublicSeen keyword acl ∨ ¬ revokesPublic obj.metaType := by
          tauto
        rw [restoredReads nonempty free seenPublic seenOwner]
        constructor
        · rintro (⟨⟨rfl, letter⟩ | ⟨rfl, letter⟩, rfl⟩ | ⟨item, member, grantee, gives⟩)
          · refine owner.elim (fun all => all c letter) fun apart => ?_
            obtain ⟨item, member, name, compared, contains⟩ :=
              (ownerSeenWhole nonempty free).mp (seenOwner rfl)
            exact absurd contains (apart item member name compared)
          · rcases public' with all | none | ⟨revokes, apart⟩
            · exact all c letter
            · exact absurd none nonempty
            · have seen := (seenPublic rfl).resolve_right fun not => not revokes
              obtain ⟨item, member, world⟩ := (publicSeenWhole nonempty free).mp seen
              exact absurd world (apart item member)
          · exact ⟨item, member, grantee.trans (readAsSelf (clean item member).1), gives⟩
        · rintro ⟨item, member, grantee, gives⟩
          exact .inr ⟨item, member, grantee.trans (readAsSelf (clean item member).1).symm, gives⟩

def tablePattern : Pattern where
  letters := ['a', 'r', 'w', 'd', 'D', 'x', 't']
  known := by simp [rights]

def bobsTable : Object where
  acl := []
  owner := "bob".toList
  ownerNamed := ⟨by decide, by decide⟩
  metaType := .PGM_TABLE
  typeName := "Table".toList
  quotedFullIdentifier := "t".toList

def toBobby : AclItem tablePattern where
  grantee := .role "bobby".toList
  privileges := [('r', false)]
  grantor := "bob".toList
  named := .inr ⟨by decide, by decide⟩
  inside := by decide
  granted := by decide
  signed := by decide

def toAlice : AclItem tablePattern where
  grantee := .role "alice".toList
  privileges := [('r', true)]
  grantor := "bob".toList
  named := .inr ⟨by decide, by decide⟩
  inside := by decide
  granted := by decide
  signed := by decide

theorem privilegesRestoredAlice : (∀ item ∈ [toAlice], ',' ∉ item.grantor) ∧
    restored (fun _ => false) [toAlice] bobsTable [] [] [] = described [toAlice] := by
  have grantors : ∀ item ∈ [toAlice], ',' ∉ item.grantor := by decide
  have legible : Legible [toAlice] := by
    simp [Legible, toAlice, Grantee.name]
  have apart : ¬ "bob".toList <:+: "alice".toList := by decide
  refine ⟨grantors, (privilegesRestored _ _ _ _ _ _ grantors).mpr ⟨legible, .inr ?_, .inl ?_⟩⟩
  · intro item member name compared
    rw [List.mem_singleton.mp member] at compared
    cases compared
    exact apart
  · exact fun c member => absurd member List.not_mem_nil

/- Bob, who has no entry, keeps all privileges, since bobby has one. -/
theorem ownerKept : restored (fun _ => false) [toBobby] bobsTable [] [] [] ≠
    described [toBobby] := by
  intro same
  have free : Whole [toBobby] := by
    unfold Whole
    decide
  have nonempty : [toBobby] ≠ [] := List.cons_ne_nil _ _
  have seen : OwnerSeen (fun _ => false) [toBobby] bobsTable.owner :=
    (ownerSeenWhole nonempty free).mpr ⟨toBobby, List.mem_singleton_self _, "bobby".toList, rfl,
      ⟨[], "by".toList, rfl⟩⟩
  have kept : (Grantee.role "bob".toList, 'a', false) ∈
      restored (fun _ => false) [toBobby] bobsTable [] [] [] :=
    (restoredReads nonempty free (fun world => Grantee.noConfusion world) fun _ => seen).mpr
      (.inl ⟨.inl ⟨rfl, by decide⟩, rfl⟩)
  rw [same] at kept
  obtain ⟨item, member, grantee, -⟩ := kept
  rw [List.mem_singleton.mp member] at grantee
  exact absurd grantee (by decide)

end PgAdmin.pgObject
