import PgAdmin.GrantReading

/-! ctlSecurityPanel::GetGrant: the statements that turn the privileges in the current list into
those of the rows of the panel. Rows and items are compared as texts. -/
namespace PgAdmin.ctlSecurityPanel
open PgsObjects (Text)
open AclText Privileges wxString pgObject

variable (keyword : Text → Bool)

def takeItem (name : Text) : List Text → Option (Text × List Text)
  | [] => none
  | item :: tmpAcl =>
    if item.take (name.length + 1) = name ++ ['='] then some (item, tmpAcl)
    else (takeItem name tmpAcl).map fun (found, rest) => (found, item :: rest)

def grantUser (name : Text) : Text :=
  if (name.take 6).map Char.toLower = groupLabel then
    groupKeyword ++ Identifier.qtIdent keyword (name.drop 6)
  else Identifier.qtIdent keyword name

def grantRow (allPattern grantObject column name value : Text) (found : Option Text) :
    List Statement :=
  let privWasAssigned := found.any fun item => item.drop (name.length + 1) = value
  let privPartiallyAssigned := found.isSome
  let user := grantUser keyword name
  if privWasAssigned then []
  else
    (if privPartiallyAssigned then GetPrivileges allPattern [] grantObject user column else []) ++
      GetPrivileges allPattern value grantObject user column

def grantRows (allPattern grantObject column : Text) :
    List (Text × Text) → List Text → List Statement × List Text
  | [], tmpAcl => ([], tmpAcl)
  | (name, value) :: lbPrivileges, tmpAcl =>
    let taken := takeItem name tmpAcl
    let rest := grantRows allPattern grantObject column lbPrivileges
      (taken.elim tmpAcl fun taken => taken.2)
    (grantRow keyword allPattern grantObject column name value (taken.map fun taken => taken.1) ++
      rest.1, rest.2)

def GetGrant (allPattern grantObject : Text) (lbPrivileges : List (Text × Text))
    (currentAcl : List Text) (column : Text) : List Statement :=
  let rows := grantRows keyword allPattern grantObject column lbPrivileges currentAcl
  rows.1 ++ rows.2.flatMap fun item =>
    GetPrivileges allPattern [] grantObject (grantUser keyword (BeforeLast item '=')) column

/- A row of the panel, or an item of the list. -/
structure Row (pattern : Pattern) where
  grantee : Grantee
  privileges : List (Char × Bool)
  named : grantee = .world ∨ Named grantee.name
  inside : ∀ privilege ∈ privileges, privilege.1 ∈ pattern.letters

variable {keyword} {pattern : Pattern}

def shown : Grantee → Text
  | .world => publicName
  | .role name => name
  | .group name => groupLabel ++ name

namespace Row

def name (row : Row pattern) : Text := shown row.grantee
def value (row : Row pattern) : Text := privilegeText row.privileges
def item (row : Row pattern) : Text := row.name ++ '=' :: row.value

/- The name of a role is not taken for that of a group. -/
def Plain (row : Row pattern) : Prop :=
  ∀ role, row.grantee = .role role → (role.take 6).map Char.toLower ≠ groupLabel

theorem valueFree (row : Row pattern) {c : Char} (other : c ∉ '*' :: rights) : c ∉ row.value := by
  intro member
  obtain ⟨⟨l, option⟩, inside, letter⟩ := List.mem_flatMap.mp member
  have known := pattern.known l (row.inside _ inside)
  cases option with
  | true =>
    rcases List.mem_cons.mp letter with rfl | star
    · exact other (List.mem_cons_of_mem _ known)
    · exact other (List.mem_singleton.mp star ▸ List.mem_cons_self)
  | false => exact other (List.mem_cons_of_mem _ (List.mem_singleton.mp letter ▸ known))

theorem readName {row : Row pattern} (plain : row.Plain) :
    readGrantee keyword (grantUser keyword row.name) = some row.grantee := by
  unfold name
  cases found : row.grantee with
  | world =>
    have bare : grantUser keyword publicName = Identifier.qtIdent keyword publicName :=
      if_neg (by decide)
    rw [shown, bare]
    exact readPublic
  | role role =>
    have named : Named role := by simpa [found, Grantee.name] using row.named
    rw [shown, grantUser, if_neg (plain role found)]
    exact readRole named
  | group role =>
    have named : Named role := by simpa [found, Grantee.name] using row.named
    have label : ((groupLabel ++ role).take 6).map Char.toLower = groupLabel := rfl
    have rest : (groupLabel ++ role).drop 6 = role := rfl
    rw [shown, grantUser, if_pos label, rest]
    exact readGroup named.1

theorem nameSame {row other : Row pattern} (plain : row.Plain) (plain' : other.Plain)
    (same : row.name = other.name) : row.grantee = other.grantee := by
  have read : readGrantee (fun _ => false) (grantUser (fun _ => false) row.name) =
      some row.grantee := readName plain
  rw [same, readName plain'] at read
  exact (Option.some.inj read).symm

theorem nameBefore (row : Row pattern) : BeforeLast row.item '=' = row.name :=
  beforeLastStop row.name (row.valueFree (by decide))

theorem startsIff (row : Row pattern) (name : Text) :
    row.item.take (name.length + 1) = name ++ ['='] ↔
      row.name = name ∨ name ++ ['='] <+: row.name := by
  have prefixIff : row.item.take (name.length + 1) = name ++ ['='] ↔
      name ++ ['='] <+: row.item := by
    rw [List.prefix_iff_eq_take, List.length_append]
    exact eq_comm
  rw [prefixIff]
  constructor
  · intro start
    have own : row.name ++ ['='] <+: row.item := ⟨row.value, by simp [item]⟩
    rcases List.prefix_or_prefix_of_prefix start own with short | long
    · exact (List.prefix_concat_iff.mp short).imp
        (fun same => (List.append_cancel_right same).symm) id
    · rcases List.prefix_concat_iff.mp long with same | ⟨rest, same⟩
      · exact .inl (List.append_cancel_right same)
      · obtain ⟨tail, whole⟩ := start
        have value : row.value = rest ++ '=' :: tail := by
          have both : row.name ++ '=' :: (rest ++ '=' :: tail) = row.name ++ '=' :: row.value := by
            rw [← item, ← whole, ← same]
            simp
          exact (List.cons.inj (List.append_cancel_left both)).2.symm
        have equals : '=' ∈ row.value := value ▸ by simp
        exact absurd equals (row.valueFree (by decide))
  · rintro (rfl | ⟨rest, same⟩)
    · exact ⟨row.value, by simp [item]⟩
    · exact ⟨rest ++ '=' :: row.value, by rw [item, ← same]; simp⟩

end Row
end PgAdmin.ctlSecurityPanel
